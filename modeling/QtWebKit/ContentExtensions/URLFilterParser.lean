import QtWebKit.ContentExtensions.SimplifySunkTerms

/-!
# The parser of url filters

The regular expression parser reports the parts of a pattern one call after another. The
pattern parser collects terms from them: a term floats until its quantifier is known, and
then sinks into the innermost open group. In the end the terms are simplified, and the
pattern is added unless no term is left that must match a character.

## Implementation notes

The group that was opened last is the first of the open groups. Results are about patterns
of ASCII characters other than NUL, which is the end of the url in a term. The parser itself
asserts only that no range of a class starts or ends with NUL, so patterns with a single NUL,
such as `[a\0]b`, are parsed too and are left out here.
-/

namespace QtWebKit.ContentExtensions

open scoped Computability
open Term

/-- The letters. -/
def isASCIIAlpha (c : Nat) : Bool := (65 ≤ c && c ≤ 90) || (97 ≤ c && c ≤ 122)

def CharacterSet.addCharacter (set : CharacterSet) (isCaseSensitive : Bool) (c : Nat) :
    CharacterSet :=
  if isCaseSensitive || !isASCIIAlpha c then set.set c
  else (set.set (toASCIILower c - 32)).set (toASCIILower c)

namespace Term

def addCharacter (isCaseSensitive : Bool) (c : Nat) : Term → Term
  | characterSet set quantifier => characterSet (set.addCharacter isCaseSensitive c) quantifier
  | group terms quantifier => group terms quantifier

def quantify (quantifier : AtomQuantifier) : Term → Term
  | characterSet set _ => characterSet set quantifier
  | group terms _ => group terms quantifier

end Term

/-! ### The parser -/

namespace URLFilterParser

/-- What the parser reports. -/
inductive ParseStatus where
  | ok
  | matchesEverything
  | nonASCII
  | unsupportedCharacterClass
  | backReference
  | misplacedStartOfLine
  | wordBoundary
  | atomCharacter
  | group
  | disjunction
  | misplacedEndOfLine
  | invalidQuantifier
  deriving DecidableEq, Repr

end URLFilterParser

/-- The calls of the regular expression parser. -/
inductive ParserCall where
  | atomPatternCharacter (character : Nat)
  | atomBuiltInCharacterClass (isNewlineClass inverted : Bool)
  | quantifyAtom (minimum maximum : Nat)
  | atomBackReference
  | assertionBOL
  | assertionEOL
  | assertionWordBoundary
  | atomCharacterClassBegin (inverted : Bool)
  | atomCharacterClassAtom (character : Nat)
  | atomCharacterClassRange (a b : Nat)
  | atomCharacterClassEnd
  | atomCharacterClassBuiltIn
  | atomParenthesesSubpatternBegin
  | atomParentheticalAssertionBegin
  | atomParenthesesEnd
  | disjunction

def quantifyInfinite : Nat := 4294967295

/-- The fields of the parser, with the terms it has sunk. -/
structure PatternParser where
  patternIsCaseSensitive : Bool
  openGroups : List (List Term)
  sunkTerms : List Term
  floatingTerm : Option Term
  hasBeginningOfLineAssertion : Bool
  hasProcessedEndOfLineAssertion : Bool
  parseStatus : URLFilterParser.ParseStatus

namespace PatternParser

variable (parser : PatternParser)

def new (patternIsCaseSensitive : Bool) : PatternParser :=
  ⟨patternIsCaseSensitive, [], [], none, false, false, .ok⟩

def fail (reason : URLFilterParser.ParseStatus) : PatternParser :=
  if parser.parseStatus ≠ .ok then parser else { parser with parseStatus := reason }

/-- Append terms to the innermost open group, or to the pattern. -/
def append (terms : List Term) : PatternParser :=
  match parser.openGroups with
  | [] => { parser with sunkTerms := parser.sunkTerms ++ terms }
  | innermost :: rest => { parser with openGroups := (innermost ++ terms) :: rest }

def sinkFloatingTermIfNecessary : PatternParser :=
  match parser.floatingTerm with
  | none => parser
  | some term =>
    if parser.hasProcessedEndOfLineAssertion then
      { parser.fail .misplacedEndOfLine with floatingTerm := none }
    else
      append { parser with
        floatingTerm := none
        hasProcessedEndOfLineAssertion := term.isEndOfLineAssertion } [term]

/-- What the calls that report an atom do in the end. -/
def float (term : Term) : PatternParser :=
  { parser.sinkFloatingTermIfNecessary with floatingTerm := some term }

/-- A new group of terms. -/
def openGroup : PatternParser :=
  { parser with openGroups := [] :: parser.openGroups }

/-- The last group becomes the floating term. -/
def closeGroup : PatternParser :=
  { parser with
    openGroups := parser.openGroups.tail
    floatingTerm := some (.group (parser.openGroups.headD []) .one) }

def quantifyAtom (quantifier : AtomQuantifier) : PatternParser :=
  { parser with floatingTerm := parser.floatingTerm.map (Term.quantify quantifier) }

def addCharacter (c : Nat) : PatternParser :=
  { parser with
    floatingTerm := parser.floatingTerm.map (Term.addCharacter parser.patternIsCaseSensitive c) }

/-- A call to a parser without error. -/
def handle : ParserCall → PatternParser
  | .atomPatternCharacter character =>
    if 128 ≤ character then parser.fail .nonASCII
    else parser.float (Term.ofCharacter character parser.patternIsCaseSensitive)
  | .atomBuiltInCharacterClass isNewlineClass inverted =>
    let parser := parser.sinkFloatingTermIfNecessary
    if isNewlineClass && inverted then
      { parser with floatingTerm := some (.universalTransition .one) }
    else parser.fail .unsupportedCharacterClass
  | .quantifyAtom minimum maximum =>
    if minimum = 0 ∧ maximum = 1 then parser.quantifyAtom .zeroOrOne
    else if minimum = 0 ∧ maximum = quantifyInfinite then parser.quantifyAtom .zeroOrMore
    else if minimum = 1 ∧ maximum = quantifyInfinite then parser.quantifyAtom .oneOrMore
    else parser.fail .invalidQuantifier
  | .atomBackReference => parser.fail .backReference
  | .assertionBOL =>
    if parser.floatingTerm.isSome || !parser.sunkTerms.isEmpty || !parser.openGroups.isEmpty then
      parser.fail .misplacedStartOfLine
    else { parser with hasBeginningOfLineAssertion := true }
  | .assertionEOL => parser.float .endOfLineAssertion
  | .assertionWordBoundary => parser.fail .wordBoundary
  | .atomCharacterClassBegin inverted => parser.float (.characterSet (.empty inverted) .one)
  | .atomCharacterClassAtom character => parser.addCharacter character
  | .atomCharacterClassRange a b => (List.range' a (b + 1 - a)).foldl addCharacter parser
  | .atomCharacterClassEnd => parser
  | .atomCharacterClassBuiltIn => parser.fail .atomCharacter
  | .atomParenthesesSubpatternBegin => parser.sinkFloatingTermIfNecessary.openGroup
  | .atomParentheticalAssertionBegin => parser.fail .group
  | .atomParenthesesEnd => parser.sinkFloatingTermIfNecessary.closeGroup
  | .disjunction => parser.fail .disjunction

/-- A call after an error has no effect. -/
def receive (call : ParserCall) : PatternParser :=
  if parser.parseStatus ≠ .ok then parser else parser.handle call

/-- The status that is reported, and the terms that are passed to `addPattern`. -/
def finalize : URLFilterParser.ParseStatus × Option (List Term) :=
  if parser.parseStatus ≠ .ok then (parser.parseStatus, none)
  else
    let parser := parser.sinkFloatingTermIfNecessary
    let terms := simplifySunkTerms parser.hasBeginningOfLineAssertion parser.sunkTerms
    if someMatchesAtLeastOneCharacter terms then (parser.parseStatus, some terms)
    else ((parser.fail .matchesEverything).parseStatus, none)

end PatternParser

/-! ### Patterns -/

/-- A part of a pattern with its quantifier; a character of a class is a range. -/
inductive PatternPart where
  | character (c : Nat) (quantifier : AtomQuantifier)
  | anyCharacter (quantifier : AtomQuantifier)
  | characterClass (inverted : Bool) (ranges : List (Nat × Nat)) (quantifier : AtomQuantifier)
  | group (parts : List PatternPart) (quantifier : AtomQuantifier)

/-- A url filter, with its anchors. -/
structure Pattern where
  startOfLine : Bool
  parts : List PatternPart
  endOfLine : Bool

def AtomQuantifier.calls : AtomQuantifier → List ParserCall
  | one => []
  | zeroOrOne => [.quantifyAtom 0 1]
  | zeroOrMore => [.quantifyAtom 0 quantifyInfinite]
  | oneOrMore => [.quantifyAtom 1 quantifyInfinite]

def classCall (range : Nat × Nat) : ParserCall :=
  if range.1 = range.2 then .atomCharacterClassAtom range.1
    else .atomCharacterClassRange range.1 range.2

namespace PatternPart

mutual

/-- The calls that report a part of a pattern. -/
def calls : PatternPart → List ParserCall
  | character c quantifier => .atomPatternCharacter c :: quantifier.calls
  | anyCharacter quantifier => .atomBuiltInCharacterClass true true :: quantifier.calls
  | characterClass inverted ranges quantifier =>
    .atomCharacterClassBegin inverted ::
      (ranges.map classCall ++ .atomCharacterClassEnd :: quantifier.calls)
  | group parts quantifier =>
    .atomParenthesesSubpatternBegin :: (callsOf parts ++ .atomParenthesesEnd :: quantifier.calls)

def callsOf : List PatternPart → List ParserCall
  | [] => []
  | part :: rest => part.calls ++ callsOf rest

end

/-- A character of the input stands for a character of the pattern. -/
def SameCharacter (isCaseSensitive : Bool) (c input : Nat) : Prop :=
  input = c ∨ (isCaseSensitive = false ∧ toASCIILower input = toASCIILower c)

/-- Some range has the character. -/
def ClassHas (isCaseSensitive : Bool) (ranges : List (Nat × Nat)) (input : Nat) : Prop :=
  ∃ range ∈ ranges, ∃ c, range.1 ≤ c ∧ c ≤ range.2 ∧ SameCharacter isCaseSensitive c input

mutual

/-- The words that a part of a pattern stands for, as a regular expression. -/
def language (isCaseSensitive : Bool) : PatternPart → Language Nat
  | character c quantifier =>
    quantifier.language {word | ∃ input, SameCharacter isCaseSensitive c input ∧ word = [input]}
  | anyCharacter quantifier => quantifier.language ContentExtensions.anyCharacter
  | characterClass inverted ranges quantifier =>
    quantifier.language {word | ∃ input, (input ≠ 0 ∧ input < 128) ∧
      (ClassHas isCaseSensitive ranges input ↔ inverted = false) ∧ word = [input]}
  | group parts quantifier => quantifier.language (languageOf isCaseSensitive parts)

def languageOf (isCaseSensitive : Bool) : List PatternPart → Language Nat
  | [] => 1
  | part :: rest => part.language isCaseSensitive * languageOf isCaseSensitive rest

end

mutual

/-- The characters are ASCII, and none is the end of the url. -/
def isPlain : PatternPart → Bool
  | character c _ => c ≠ 0 ∧ c < 128
  | anyCharacter _ => true
  | characterClass _ ranges _ => ranges.all fun range => range.1 ≠ 0 ∧ range.2 < 128
  | group parts _ => allPlain parts

/-- Only characters other than NUL. -/
def allPlain : List PatternPart → Bool
  | [] => true
  | part :: rest => part.isPlain && allPlain rest

end

end PatternPart

namespace Pattern

def calls (pattern : Pattern) : List ParserCall :=
  (if pattern.startOfLine then [.assertionBOL] else []) ++ PatternPart.callsOf pattern.parts ++
    if pattern.endOfLine then [.assertionEOL] else []

/-- The status and the terms of a pattern. -/
def parse (pattern : Pattern) (isCaseSensitive : Bool) :
    URLFilterParser.ParseStatus × Option (List Term) :=
  (pattern.calls.foldl PatternParser.receive (.new isCaseSensitive)).finalize

/-- The search for the pattern in a url succeeds. -/
def Finds (pattern : Pattern) (isCaseSensitive : Bool) (url : List Nat) : Prop :=
  ∃ before word after, url = before ++ word ++ after ∧
    word ∈ PatternPart.languageOf isCaseSensitive pattern.parts ∧
    (pattern.startOfLine = true → before = []) ∧ (pattern.endOfLine = true → after = [])

end Pattern

/-! ### The terms that are collected -/

namespace PatternPart

mutual

/-- The term that the parser builds for a part. -/
def toTerm (isCaseSensitive : Bool) : PatternPart → Term
  | character c quantifier => (Term.ofCharacter c isCaseSensitive).quantify quantifier
  | anyCharacter quantifier => .universalTransition quantifier
  | characterClass inverted ranges quantifier =>
    .characterSet (ranges.foldl (fun set range =>
      (List.range' range.1 (range.2 + 1 - range.1)).foldl (·.addCharacter isCaseSensitive) set)
      (.empty inverted)) quantifier
  | group parts quantifier => .group (toTerms isCaseSensitive parts) quantifier

def toTerms (isCaseSensitive : Bool) : List PatternPart → List Term
  | [] => []
  | part :: rest => part.toTerm isCaseSensitive :: toTerms isCaseSensitive rest

end

end PatternPart

namespace PatternParser

/-- The parser has seen no error and no end of line. -/
structure Ready (parser : PatternParser) : Prop where
  ok : parser.parseStatus = .ok
  before_end : parser.hasProcessedEndOfLineAssertion = false
  floating : ∀ term ∈ parser.floatingTerm, term.isEndOfLineAssertion = false

variable {parser : PatternParser}

theorem receive_of_ok (h : parser.parseStatus = .ok) (call : ParserCall) :
    parser.receive call = parser.handle call :=
  if_neg (not_not_intro h)

theorem append_append (parser : PatternParser) (first snd : List Term) :
    (parser.append first).append snd = parser.append (first ++ snd) := by
  cases parser with
  | mk sens openGroups sunkTerms floatingTerm beginning ending status =>
    cases openGroups <;> simp [append]

theorem append_nil (parser : PatternParser) : parser.append [] = parser := by
  cases parser with
  | mk sens openGroups sunkTerms floatingTerm beginning ending status =>
    cases openGroups <;> simp [append]

theorem Ready.sink (h : parser.Ready) :
    parser.sinkFloatingTermIfNecessary =
      append { parser with floatingTerm := none } parser.floatingTerm.toList := by
  cases hf : parser.floatingTerm with
  | none =>
    rw [sinkFloatingTermIfNecessary, hf, Option.toList_none, append_nil]
    cases parser
    cases hf
    rfl
  | some term =>
    rw [sinkFloatingTermIfNecessary, hf]
    simp only [h.before_end, Bool.false_eq_true, ↓reduceIte, h.floating term hf]
    rw [← h.before_end]
    rfl

section

variable (parser) (ts : List Term)

@[simp] theorem append_parseStatus : (parser.append ts).parseStatus = parser.parseStatus := by
  unfold append; split <;> rfl

@[simp] theorem append_hasProcessedEndOfLineAssertion :
    (parser.append ts).hasProcessedEndOfLineAssertion = parser.hasProcessedEndOfLineAssertion := by
  unfold append; split <;> rfl

@[simp] theorem append_hasBeginningOfLineAssertion :
    (parser.append ts).hasBeginningOfLineAssertion = parser.hasBeginningOfLineAssertion := by
  unfold append; split <;> rfl

@[simp] theorem append_floatingTerm : (parser.append ts).floatingTerm = parser.floatingTerm := by
  unfold append; split <;> rfl

@[simp] theorem append_patternIsCaseSensitive :
    (parser.append ts).patternIsCaseSensitive = parser.patternIsCaseSensitive := by
  unfold append; split <;> rfl

end

theorem Ready.float (h : parser.Ready) {term : Term} (ht : term.isEndOfLineAssertion = false) :
    (parser.float term).Ready where
  ok := by simp [PatternParser.float, h.sink, h.ok]
  before_end := by simp [PatternParser.float, h.sink, h.before_end]
  floating := by simpa [PatternParser.float] using ht

theorem Ready.float_patternIsCaseSensitive (h : parser.Ready) (term : Term) :
    (parser.float term).patternIsCaseSensitive = parser.patternIsCaseSensitive := by
  simp [PatternParser.float, h.sink]

theorem sink_of_none (h : parser.floatingTerm = none) :
    parser.sinkFloatingTermIfNecessary = parser := by
  rw [sinkFloatingTermIfNecessary, h]

/-- A term that floats sinks after the terms that sank before. -/
theorem Ready.sink_float (h : parser.Ready) {term : Term} (ht : term.isEndOfLineAssertion = false) :
    (parser.float term).sinkFloatingTermIfNecessary =
      parser.sinkFloatingTermIfNecessary.append [term] := by
  have hno : { parser.float term with floatingTerm := none } =
      parser.sinkFloatingTermIfNecessary := by
    have hf : parser.sinkFloatingTermIfNecessary.floatingTerm = none := by simp [h.sink]
    rw [PatternParser.float, ← hf]
  rw [(h.float ht).sink, hno]
  rfl

theorem receive_quantifier (hok : parser.parseStatus = .ok) {term : Term}
    (hon : term.quantifier = .one)
    (hf : parser.floatingTerm = some term) (qt : AtomQuantifier) :
    qt.calls.foldl receive parser =
      { parser with floatingTerm := some (term.quantify qt) } := by
  have hh (call) : receive parser call = parser.handle call := receive_of_ok hok call
  cases qt with
  | one =>
    have ht : term.quantify .one = term := by
      cases term <;> cases hon <;> rfl
    rw [ht, ← hf]
    rfl
  | zeroOrOne => simp [AtomQuantifier.calls, hh, handle, quantifyAtom, hf]
  | zeroOrMore => simp [AtomQuantifier.calls, hh, handle, quantifyAtom, hf, quantifyInfinite]
  | oneOrMore => simp [AtomQuantifier.calls, hh, handle, quantifyAtom, hf, quantifyInfinite]

theorem foldl_addCharacter (cs : List Nat) {set}
    (hf : parser.floatingTerm = some (.characterSet set .one)) :
    cs.foldl addCharacter parser =
      { parser with floatingTerm := some (.characterSet
          (cs.foldl (·.addCharacter parser.patternIsCaseSensitive) set) .one) } := by
  induction cs generalizing parser set with
  | nil => rw [List.foldl_nil, List.foldl_nil, ← hf]
  | cons c rest ih =>
    have hnx : parser.addCharacter c =
        { parser with floatingTerm := some (.characterSet
            (set.addCharacter parser.patternIsCaseSensitive c) .one) } := by
      rw [addCharacter, hf]
      rfl
    rw [List.foldl_cons, hnx, ih rfl]
    rfl

theorem receive_classCalls (rs : List (Nat × Nat)) (hok : parser.parseStatus = .ok)
    {set} (hf : parser.floatingTerm = some (.characterSet set .one)) :
    (rs.map classCall).foldl receive parser =
      { parser with floatingTerm := some (.characterSet (rs.foldl (fun set rng =>
          (List.range' rng.1 (rng.2 + 1 - rng.1)).foldl
            (·.addCharacter parser.patternIsCaseSensitive) set) set) .one) } := by
  induction rs generalizing parser set with
  | nil => rw [List.map_nil, List.foldl_nil, List.foldl_nil, ← hf]
  | cons rng rest ih =>
    have hcall : parser.receive (classCall rng) =
        (List.range' rng.1 (rng.2 + 1 - rng.1)).foldl addCharacter parser := by
      rw [receive_of_ok hok, classCall]
      split
      · rename_i heq
        rw [← heq, show rng.1 + 1 - rng.1 = 1 by omega]
        rfl
      · rfl
    rw [List.map_cons, List.foldl_cons, hcall, foldl_addCharacter _ hf, ih (by exact hok) rfl]
    rfl

end PatternParser

/-! ### The terms and their languages -/

theorem CharacterSet.get_addCharacter (set : CharacterSet) (sens : Bool) {c} (hc : c < 128)
    (input : Nat) :
    (set.addCharacter sens c).get input = true ↔
      set.get input = true ∨ PatternPart.SameCharacter sens c input := by
  unfold addCharacter PatternPart.SameCharacter
  split
  · rename_i hk
    rw [get_set _ hc, Bool.or_eq_true, decide_eq_true_iff]
    cases sens with
    | true => simp
    | false =>
      simp only [isASCIIAlpha, Bool.false_or, Bool.not_eq_true', Bool.or_eq_false_iff,
        Bool.and_eq_false_iff, decide_eq_false_iff_not] at hk
      unfold toASCIILower
      grind
  · rename_i hal
    simp only [isASCIIAlpha, Bool.or_eq_true, Bool.not_eq_true', Bool.or_eq_false_iff,
      Bool.and_eq_false_iff, decide_eq_false_iff_not, not_or, Bool.not_eq_true] at hal
    have hlw : toASCIILower c < 128 := by
      unfold toASCIILower
      split <;> omega
    rw [get_set _ hlw, get_set _ (by omega), Bool.or_eq_true, Bool.or_eq_true, decide_eq_true_iff,
      decide_eq_true_iff, hal.1]
    unfold toASCIILower
    grind

theorem CharacterSet.get_foldl_addCharacter (sens : Bool) {cs : List Nat}
    (h : ∀ c ∈ cs, c < 128) (set : CharacterSet) (input : Nat) :
    (cs.foldl (·.addCharacter sens) set).get input = true ↔
      set.get input = true ∨ ∃ c ∈ cs, PatternPart.SameCharacter sens c input := by
  induction cs generalizing set with
  | nil => simp
  | cons c rest ih =>
    rw [List.forall_mem_cons] at h
    rw [List.foldl_cons, ih h.2, get_addCharacter _ _ h.1, or_assoc]
    simp

theorem CharacterSet.inverted_foldl_addCharacter (sens : Bool) (cs : List Nat)
    (set : CharacterSet) : (cs.foldl (·.addCharacter sens) set).inverted = set.inverted := by
  induction cs generalizing set with
  | nil => rfl
  | cons c rest ih =>
    rw [List.foldl_cons, ih]
    unfold addCharacter
    split <;> rfl

namespace PatternPart

variable {sens : Bool}

/-- The set of a class has the characters of its ranges. -/
theorem get_classSet {rs : List (Nat × Nat)} (h : ∀ rng ∈ rs, rng.2 < 128) (set : CharacterSet)
    (input : Nat) :
    (rs.foldl (fun set rng =>
        (List.range' rng.1 (rng.2 + 1 - rng.1)).foldl (·.addCharacter sens) set) set).get
        input = true ↔
      set.get input = true ∨ ClassHas sens rs input := by
  induction rs generalizing set with
  | nil => simp [ClassHas]
  | cons rng rest ih =>
    rw [List.forall_mem_cons] at h
    have hg : ∀ c ∈ List.range' rng.1 (rng.2 + 1 - rng.1), c < 128 := by
      intro c hc
      have := List.mem_range'_1.mp hc
      omega
    have hmm : (∃ c ∈ List.range' rng.1 (rng.2 + 1 - rng.1), SameCharacter sens c input) ↔
        ∃ c, rng.1 ≤ c ∧ c ≤ rng.2 ∧ SameCharacter sens c input := by
      refine exists_congr fun c => ?_
      rw [List.mem_range'_1, ← and_assoc]
      exact and_congr_left fun _ => by omega
    rw [List.foldl_cons, ih h.2, CharacterSet.get_foldl_addCharacter _ hg, hmm, or_assoc]
    simp [ClassHas]

theorem inverted_classSet (rs : List (Nat × Nat)) (set : CharacterSet) :
    (rs.foldl (fun set rng =>
      (List.range' rng.1 (rng.2 + 1 - rng.1)).foldl (·.addCharacter sens) set) set).inverted =
        set.inverted := by
  induction rs generalizing set with
  | nil => rfl
  | cons rng rest ih => rw [List.foldl_cons, ih, CharacterSet.inverted_foldl_addCharacter]

theorem not_sameCharacter_zero {c} (hc : c ≠ 0) : ¬ SameCharacter sens c 0 := by
  unfold SameCharacter toASCIILower
  grind

theorem ofCharacter_eq (c : Nat) :
    Term.ofCharacter c sens =
      .characterSet ((CharacterSet.empty false).addCharacter sens c) .one := by
  unfold Term.ofCharacter CharacterSet.addCharacter isASCIIAlpha
  split <;> rfl

theorem get_empty (inverted : Bool) (c : Nat) : (CharacterSet.empty inverted).get c = false :=
  BitVec.getLsbD_zero

theorem accepts_classSet {inverted} {rs : List (Nat × Nat)}
    (h : ∀ rng ∈ rs, rng.1 ≠ 0 ∧ rng.2 < 128) (input : Nat) :
    (rs.foldl (fun set rng =>
        (List.range' rng.1 (rng.2 + 1 - rng.1)).foldl (·.addCharacter sens) set)
        (CharacterSet.empty inverted)).accepts input = true ↔
      (input ≠ 0 ∧ input < 128) ∧ (ClassHas sens rs input ↔ inverted = false) := by
  have hgt := @get_classSet sens rs (fun rng hg => (h rng hg).2)
    (CharacterSet.empty inverted) input
  rw [get_empty, or_iff_right Bool.false_ne_true] at hgt
  have hz : ClassHas sens rs input → input ≠ 0 := by
    rintro ⟨rng, hg, c, hle, _, hsm⟩ rfl
    have := (h rng hg).1
    exact not_sameCharacter_zero (by omega) hsm
  rw [CharacterSet.accepts, inverted_classSet, ← hgt]
  rw [← hgt] at hz
  cases inverted with
  | true =>
    simp only [CharacterSet.empty, ↓reduceIte, Bool.and_eq_true, decide_eq_true_iff,
      Bool.not_eq_true', Bool.true_eq_false, iff_false, Bool.not_eq_true, Nat.pos_iff_ne_zero]
  | false =>
    simp only [CharacterSet.empty, Bool.false_eq_true, ↓reduceIte, Bool.and_eq_true,
      decide_eq_true_iff, iff_true]
    exact ⟨fun hse => ⟨⟨hz hse.2, hse.1⟩, hse.2⟩, fun hse => ⟨hse.1.2, hse.2⟩⟩

theorem get_characterSet_zero {c} (hc : c ≠ 0 ∧ c < 128) :
    ((CharacterSet.empty false).addCharacter sens c).get 0 = false := by
  rw [Bool.eq_false_iff, ne_eq, CharacterSet.get_addCharacter _ _ hc.2, get_empty,
    or_iff_right Bool.false_ne_true]
  exact not_sameCharacter_zero hc.1

mutual

theorem avoidsEnd_toTerm :
    (part : PatternPart) → part.isPlain = true → (part.toTerm sens).avoidsEnd = true
  | character c qt, h => by
      rw [isPlain, decide_eq_true_iff] at h
      rw [toTerm, ofCharacter_eq, Term.quantify, Term.avoidsEnd, get_characterSet_zero h,
        Bool.not_false]
  | anyCharacter qt, _ => by
      rw [toTerm]
      exact avoidsEnd_canonicalDotStar
  | characterClass inverted rs qt, h => by
      simp only [isPlain, List.all_eq_true, decide_eq_true_iff] at h
      rw [toTerm, Term.avoidsEnd, Bool.not_eq_true', Bool.eq_false_iff, ne_eq,
        get_classSet fun rng hg => (h rng hg).2, get_empty, or_iff_right Bool.false_ne_true]
      rintro ⟨rng, hg, c, hle, _, hsm⟩
      have := (h rng hg).1
      exact not_sameCharacter_zero (by omega) hsm
  | group parts qt, h => by
      rw [toTerm]
      exact allAvoidEnd_toTerms parts h

theorem allAvoidEnd_toTerms :
    (parts : List PatternPart) → allPlain parts = true → allAvoidEnd (toTerms sens parts) = true
  | [], _ => rfl
  | part :: rest, h => by
      rw [allPlain, Bool.and_eq_true] at h
      rw [toTerms, allAvoidEnd, avoidsEnd_toTerm part h.1, allAvoidEnd_toTerms rest h.2,
        Bool.and_self]

end

mutual

/-- A term stands for the words of its part of the pattern. -/
theorem language_toTerm :
    (part : PatternPart) → part.isPlain = true →
      (part.toTerm sens).language = part.language sens
  | character c qt, h => by
      rw [isPlain, decide_eq_true_iff] at h
      rw [toTerm, ofCharacter_eq, Term.quantify, Term.language, language]
      congr 1
      ext word
      refine exists_congr fun input => and_congr_left fun _ => ?_
      have hgt := CharacterSet.get_addCharacter (.empty false) sens h.2 input
      rw [get_empty, or_iff_right Bool.false_ne_true] at hgt
      have hse : ((CharacterSet.empty false).addCharacter sens c).inverted = false :=
        CharacterSet.inverted_foldl_addCharacter sens [c] _
      rw [CharacterSet.accepts, hse, if_neg Bool.false_ne_true, Bool.and_eq_true,
        decide_eq_true_iff, hgt]
      exact and_iff_right_of_imp fun hsm => CharacterSet.lt_of_get (hgt.mpr hsm)
  | anyCharacter qt, _ => by
      rw [toTerm, language]
      rfl
  | characterClass inverted rs qt, h => by
      simp only [isPlain, List.all_eq_true, decide_eq_true_iff] at h
      rw [toTerm, Term.language, language]
      congr 1
      ext word
      refine exists_congr fun input => ?_
      rw [accepts_classSet h, and_assoc]
  | group parts qt, h => by
      rw [toTerm, Term.language, language, patternLanguage_toTerms parts h]

theorem patternLanguage_toTerms :
    (parts : List PatternPart) → allPlain parts = true →
      patternLanguage (toTerms sens parts) = languageOf sens parts
  | [], _ => rfl
  | part :: rest, h => by
      rw [allPlain, Bool.and_eq_true] at h
      rw [toTerms, patternLanguage, languageOf, language_toTerm part h.1,
        patternLanguage_toTerms rest h.2]

end

end PatternPart

/-! ### The calls of a pattern -/

namespace PatternParser

theorem Ready.openGroup {parser : PatternParser} (h : parser.Ready) :
    parser.sinkFloatingTermIfNecessary.openGroup.Ready where
  ok := by simp [PatternParser.openGroup, h.sink, h.ok]
  before_end := by simp [PatternParser.openGroup, h.sink, h.before_end]
  floating := by simp [PatternParser.openGroup, h.sink]

/-- The terms of a group are those that were appended since it was opened. -/
theorem closeGroup_append (parser : PatternParser) (ts : List Term) :
    (parser.openGroup.append ts).closeGroup =
      { parser with floatingTerm := some (.group ts .one) } :=
  rfl

mutual

/-- After the calls of a part its term floats. -/
theorem receive_calls : (part : PatternPart) → part.isPlain = true → {parser : PatternParser} →
    parser.Ready →
      part.calls.foldl receive parser = parser.float (part.toTerm parser.patternIsCaseSensitive)
  | .character c qt, hp, parser, h => by
      rw [PatternPart.isPlain, decide_eq_true_iff] at hp
      have hfl : parser.receive (.atomPatternCharacter c) =
          parser.float (Term.ofCharacter c parser.patternIsCaseSensitive) := by
        rw [receive_of_ok h.ok]
        exact if_neg (by omega)
      have hok : (parser.float (Term.ofCharacter c parser.patternIsCaseSensitive)).parseStatus =
          .ok := by
        simp [PatternParser.float, h.sink, h.ok]
      rw [PatternPart.calls, List.foldl_cons, hfl,
        receive_quantifier hok (by rw [PatternPart.ofCharacter_eq]; rfl) rfl, PatternPart.toTerm]
      rfl
  | .anyCharacter qt, _, parser, h => by
      have hfl : parser.receive (.atomBuiltInCharacterClass true true) =
          parser.float (.universalTransition .one) := receive_of_ok h.ok _
      have hok : (parser.float (.universalTransition .one)).parseStatus = .ok := by
        simp [PatternParser.float, h.sink, h.ok]
      rw [PatternPart.calls, List.foldl_cons, hfl, receive_quantifier hok rfl rfl,
        PatternPart.toTerm]
      rfl
  | .characterClass inverted rs qt, _, parser, h => by
      have hfl : parser.receive (.atomCharacterClassBegin inverted) =
          parser.float (.characterSet (.empty inverted) .one) := receive_of_ok h.ok _
      have hok : (parser.float (.characterSet (.empty inverted) .one)).parseStatus = .ok := by
        simp [PatternParser.float, h.sink, h.ok]
      have he {parser : PatternParser} (hps : parser.parseStatus = .ok) :
          parser.receive .atomCharacterClassEnd = parser := receive_of_ok hps _
      rw [PatternPart.calls, List.foldl_cons, hfl, List.foldl_append, receive_classCalls _ hok rfl,
        List.foldl_cons, he (by exact hok), receive_quantifier (by exact hok) rfl rfl,
        PatternPart.toTerm, ← h.float_patternIsCaseSensitive (.characterSet (.empty inverted) .one)]
      rfl
  | .group parts qt, hp, parser, h => by
      have ho : parser.receive .atomParenthesesSubpatternBegin =
          parser.sinkFloatingTermIfNecessary.openGroup := receive_of_ok h.ok _
      obtain ⟨hr, hs⟩ := receive_callsOf parts hp h.openGroup
      have hsn : parser.sinkFloatingTermIfNecessary.openGroup.patternIsCaseSensitive =
          parser.patternIsCaseSensitive := by simp [PatternParser.openGroup, h.sink]
      have hf : parser.sinkFloatingTermIfNecessary.openGroup.floatingTerm = none := by
        simp [PatternParser.openGroup, h.sink]
      rw [hsn, sink_of_none hf] at hs
      have hcs : receive ((PatternPart.callsOf parts).foldl receive
          parser.sinkFloatingTermIfNecessary.openGroup) .atomParenthesesEnd =
            parser.float (.group (PatternPart.toTerms parser.patternIsCaseSensitive parts)
              .one) := by
        rw [receive_of_ok hr.ok, handle, hs, closeGroup_append]
        rfl
      have hok : (parser.float
          (.group (PatternPart.toTerms parser.patternIsCaseSensitive parts) .one)).parseStatus =
            .ok := by
        simp [PatternParser.float, h.sink, h.ok]
      rw [PatternPart.calls, List.foldl_cons, ho, List.foldl_append, List.foldl_cons, hcs,
        receive_quantifier hok rfl rfl, PatternPart.toTerm]
      rfl

theorem receive_callsOf : (parts : List PatternPart) → PatternPart.allPlain parts = true →
    {parser : PatternParser} → parser.Ready →
      ((PatternPart.callsOf parts).foldl receive parser).Ready ∧
      ((PatternPart.callsOf parts).foldl receive parser).sinkFloatingTermIfNecessary =
        parser.sinkFloatingTermIfNecessary.append
          (PatternPart.toTerms parser.patternIsCaseSensitive parts)
  | [], _, parser, h => ⟨h, (append_nil _).symm⟩
  | part :: rest, hp, parser, h => by
      rw [PatternPart.allPlain, Bool.and_eq_true] at hp
      have ht : (part.toTerm parser.patternIsCaseSensitive).isEndOfLineAssertion = false :=
        isEndOfLineAssertion_of_avoidsEnd (PatternPart.avoidsEnd_toTerm part hp.1)
      obtain ⟨hr, hs⟩ := receive_callsOf rest hp.2 (h.float ht)
      rw [PatternPart.callsOf, List.foldl_append, receive_calls part hp.1 h]
      refine ⟨hr, ?_⟩
      rw [hs, h.sink_float ht, append_append, h.float_patternIsCaseSensitive, PatternPart.toTerms]
      rfl

end

end PatternParser

namespace Pattern

variable {pattern : Pattern} {sens : Bool} {url : List Nat}

/-- The terms that are simplified in the end. -/
theorem finalize_sunkTerms (hp : PatternPart.allPlain pattern.parts = true) :
    pattern.parse sens =
      let ts := simplifySunkTerms pattern.startOfLine
        (withEndOfLine (PatternPart.toTerms sens pattern.parts) pattern.endOfLine)
      if someMatchesAtLeastOneCharacter ts then (.ok, some ts) else (.matchesEverything, none) := by
  let start : PatternParser := { PatternParser.new sens with
    hasBeginningOfLineAssertion := pattern.startOfLine }
  have hst : (if pattern.startOfLine then [ParserCall.assertionBOL] else []).foldl
      PatternParser.receive
      (.new sens) = start := by
    cases hl : pattern.startOfLine <;> simp [start, hl] <;> rfl
  have hr : start.Ready := ⟨rfl, rfl, by simp [start, PatternParser.new]⟩
  obtain ⟨hpt, hs⟩ := PatternParser.receive_callsOf pattern.parts hp hr
  let parser := (PatternPart.callsOf pattern.parts).foldl PatternParser.receive start
  have hcl : parser.sinkFloatingTermIfNecessary =
      { start with sunkTerms := PatternPart.toTerms sens pattern.parts } := hs
  have hca : pattern.calls.foldl PatternParser.receive (.new sens) =
      (if pattern.endOfLine then [ParserCall.assertionEOL] else []).foldl PatternParser.receive
        parser := by
    rw [calls, List.foldl_append, List.foldl_append, hst]
  rw [parse, hca]
  cases hl : pattern.endOfLine with
  | false =>
    rw [if_neg Bool.false_ne_true, List.foldl_nil, PatternParser.finalize,
      if_neg (not_not_intro hpt.ok), hcl, withEndOfLine, if_neg Bool.false_ne_true, List.append_nil]
    rfl
  | true =>
    have he : [ParserCall.assertionEOL].foldl PatternParser.receive parser =
        { start with
          sunkTerms := PatternPart.toTerms sens pattern.parts
          floatingTerm := some .endOfLineAssertion } := by
      rw [List.foldl_cons, List.foldl_nil, PatternParser.receive_of_ok hpt.ok, PatternParser.handle,
        PatternParser.float, hcl]
    rw [if_pos rfl, he]
    rfl

/-- The search succeeds if a front part of the url is a start and a word of the pattern. -/
theorem finds_iff_prefix (hu : url ∈ anyCharacter∗) :
    pattern.Finds sens url ↔
      ∃ word ∈ searchStart pattern.startOfLine * PatternPart.languageOf sens pattern.parts,
        word <+: url ∧ (pattern.endOfLine = true → word = url) := by
  constructor
  · rintro ⟨pre, word, after, rfl, hwd, hb, hat⟩
    refine ⟨pre ++ word, ⟨pre, ?_, word, hwd, rfl⟩, List.prefix_append _ _, ?_⟩
    · cases hl : pattern.startOfLine with
      | true =>
        rw [hb hl]
        exact Language.nil_mem_one
      | false => exact mem_anyString.mpr fun c hc => mem_anyString.mp hu c (by simp [hc])
    · intro hl
      rw [hat hl, List.append_nil]
  · rintro ⟨_, ⟨pre, hb, word, hwd, rfl⟩, ⟨after, rfl⟩, he⟩
    refine ⟨pre, word, after, rfl, hwd, ?_, ?_⟩
    · intro hl
      rw [searchStart, if_pos hl] at hb
      exact hb
    · intro hl
      have hln := congrArg List.length (he hl)
      simp only [List.length_append] at hln
      exact List.eq_nil_of_length_eq_zero (by omega)

/-- A pattern whose parts can all be empty is found in every url unless both ends are bound. -/
theorem finds_of_nil_mem (h : [] ∈ PatternPart.languageOf sens pattern.parts)
    (hl : pattern.startOfLine = false ∨ pattern.endOfLine = false) : pattern.Finds sens url := by
  obtain hst | he := hl
  · exact ⟨url, [], [], by simp, h, by simp [hst], fun _ => rfl⟩
  · exact ⟨[], [], url, by simp, h, fun _ => rfl, by simp [he]⟩

theorem finds_nil_iff : pattern.Finds sens [] ↔ [] ∈ PatternPart.languageOf sens pattern.parts := by
  constructor
  · rintro ⟨pre, word, after, hu, hwd, _, _⟩
    obtain ⟨hfr, rfl⟩ := List.append_eq_nil_iff.mp hu.symm
    obtain ⟨rfl, rfl⟩ := List.append_eq_nil_iff.mp hfr
    exact hwd
  · intro h
    exact ⟨[], [], [], rfl, h, fun _ => rfl, fun _ => rfl⟩

/-- The classification of a pattern is exact: it is reported to match everything only if it
does, and otherwise the terms that are added match what the pattern finds. -/
structure IsExact (pattern : Pattern) (isCaseSensitive : Bool) : Prop where
  accepted : pattern.parse isCaseSensitive = (.matchesEverything, none) ∨
    ∃ terms, pattern.parse isCaseSensitive = (.ok, some terms)
  matchesEverything : (pattern.parse isCaseSensitive).1 = .matchesEverything →
    ∀ url ∈ anyCharacter∗, pattern.Finds isCaseSensitive url
  addPattern : ∀ terms, (pattern.parse isCaseSensitive).2 = some terms →
    ∀ url ∈ anyCharacter∗, (PatternMatches terms (url ++ [0]) ↔ pattern.Finds isCaseSensitive url)

/-- Whether a pattern matches everything is decided by its parts alone: all can be empty. -/
theorem parse_eq (hp : PatternPart.allPlain pattern.parts = true) :
    (pattern.Finds sens [] ∧ pattern.parse sens = (.matchesEverything, none)) ∨
    (¬ pattern.Finds sens [] ∧ ∃ ts, pattern.parse sens = (.ok, some ts) ∧
      ∀ url ∈ anyCharacter∗, (PatternMatches ts (url ++ [0]) ↔ pattern.Finds sens url)) := by
  have hav := @PatternPart.allAvoidEnd_toTerms sens pattern.parts hp
  have hso := @someMatchesAtLeastOneCharacter_simplifySunkTerms pattern.startOfLine _ hav
      pattern.endOfLine
  rw [PatternPart.patternLanguage_toTerms _ hp, ← finds_nil_iff] at hso
  rw [finalize_sunkTerms hp]
  dsimp only
  split
  · rename_i hm
    refine .inr ⟨fun hfn => ?_, _, rfl, fun url hu => ?_⟩
    · exact Bool.false_ne_true ((hso.mpr hfn).symm.trans hm)
    · rw [patternMatches_simplifySunkTerms hav hu, PatternPart.patternLanguage_toTerms _ hp,
        finds_iff_prefix hu]
  · rename_i hm
    exact .inl ⟨hso.mp (Bool.eq_false_iff.mpr hm), rfl⟩

/-- The classification fails exactly for the patterns with both ends bound that are found in
the empty url but not in every url. -/
theorem isExact_iff (hplain : PatternPart.allPlain pattern.parts = true) (isCaseSensitive : Bool) :
    pattern.IsExact isCaseSensitive ↔
      (pattern.startOfLine = true → pattern.endOfLine = true → pattern.Finds isCaseSensitive [] →
        ∀ url ∈ anyCharacter∗, pattern.Finds isCaseSensitive url) := by
  obtain ⟨hfinds, hparse⟩ | ⟨hfinds, terms, hparse, hmatches⟩ :=
      @parse_eq pattern isCaseSensitive hplain
  · constructor
    · intro hexact _ _ _
      exact hexact.matchesEverything (by rw [hparse])
    · intro h
      refine ⟨.inl hparse, fun _ url hurl => ?_, fun terms hterms => ?_⟩
      · by_cases hboth : pattern.startOfLine = true ∧ pattern.endOfLine = true
        · exact h hboth.1 hboth.2 hfinds url hurl
        · rw [not_and_or, Bool.not_eq_true, Bool.not_eq_true] at hboth
          exact finds_of_nil_mem (finds_nil_iff.mp hfinds) hboth
      · rw [hparse] at hterms
        cases hterms
  · constructor
    · intro _ _ _ hnil
      exact absurd hnil hfinds
    · intro _
      refine ⟨.inr ⟨terms, hparse⟩, fun hstatus => ?_, fun terms' hterms => ?_⟩
      · rw [hparse] at hstatus
        cases hstatus
      · rw [hparse] at hterms
        cases hterms
        exact hmatches

/-- The pattern `^a(b[c-d]*)+$`. -/
def nestedPattern : Pattern :=
  ⟨true, [.character 97 .one,
    .group [.character 98 .one, .characterClass false [(99, 100)] .zeroOrMore] .oneOrMore], true⟩

/-- A group, a class and both anchors, in either case mode. -/
theorem isExact_nestedPattern : IsExact nestedPattern true ∧ IsExact nestedPattern false := by
  have hnil (isCaseSensitive : Bool) : ¬ nestedPattern.Finds isCaseSensitive [] := by
    intro h
    obtain ⟨first, ⟨input, -, rfl⟩, rest, -, happend⟩ := Language.mem_mul.mp (finds_nil_iff.mp h)
    cases happend
  exact ⟨(isExact_iff (by decide) true).mpr fun _ _ h => absurd h (hnil true),
    (isExact_iff (by decide) false).mpr fun _ _ h => absurd h (hnil false)⟩

/-- The pattern `^a*$` is reported to match everything, but it does not match `b`. -/
theorem not_isExact_optional : ¬ IsExact ⟨true, [.character 97 .zeroOrMore], true⟩ true := by
  intro hexact
  have hstatus : (parse ⟨true, [.character 97 .zeroOrMore], true⟩ true).1 =
      .matchesEverything := by decide +kernel
  obtain ⟨before, word, after, hurl, hword, hbef, hafter⟩ :=
    hexact.matchesEverything hstatus [98] (mem_anyString.mpr (by decide))
  rw [hbef rfl, hafter rfl, List.nil_append, List.append_nil] at hurl
  rw [PatternPart.languageOf, PatternPart.languageOf, mul_one, PatternPart.language,
    ← hurl] at hword
  obtain ⟨words, hwords, hletters⟩ := Language.mem_kstar.mp hword
  obtain ⟨letter, hletter, hmem⟩ := List.mem_flatten.mp (hwords ▸ List.mem_singleton_self 98)
  obtain ⟨input, hsame, rfl⟩ := hletters letter hletter
  rw [List.mem_singleton] at hmem
  simp [PatternPart.SameCharacter, ← hmem] at hsame

end Pattern

end QtWebKit.ContentExtensions
