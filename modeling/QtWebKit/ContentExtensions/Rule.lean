import QtWebKit.Lib.ByteOrder
import Mathlib.Data.List.Basic

/-!
# Content extension rules and their serialized actions

A rule is a trigger and an action. The actions of a rule list are stored in one
byte vector: one byte for the type and, for a selector, its length, its
character width and its characters.

## Implementation notes

Strings are compared by their characters, so a trigger keeps only these. The
width in which a string stores its characters is kept where the serializer reads
it. A failed `RELEASE_ASSERT` is `none`.
-/

namespace QtWebKit.ContentExtensions

open ByteOrder

abbrev SerializedActionByte : Type := UInt8

abbrev ResourceFlags : Type := UInt16

inductive ActionType where
  | blockLoad
  | blockCookies
  | cssDisplayNoneSelector
  | cssDisplayNoneStyleSheet
  | ignorePreviousRules
  | makeHTTPS
  | invalidAction
  deriving DecidableEq, Repr

namespace ActionType

def toByte : ActionType → SerializedActionByte
  | blockLoad => 0
  | blockCookies => 1
  | cssDisplayNoneSelector => 2
  | cssDisplayNoneStyleSheet => 3
  | ignorePreviousRules => 4
  | makeHTTPS => 5
  | invalidAction => 6

/-- The types that `deserializeType` returns; the other bytes crash. -/
def ofByte (byte : SerializedActionByte) : Option ActionType :=
  if byte = 1 then some blockCookies
  else if byte = 0 then some blockLoad
  else if byte = 4 then some ignorePreviousRules
  else if byte = 2 then some cssDisplayNoneSelector
  else if byte = 5 then some makeHTTPS
  else none

/-- The types of the actions that a rule list can name. -/
def isRuleAction : ActionType → Bool
  | blockLoad | blockCookies | cssDisplayNoneSelector | ignorePreviousRules | makeHTTPS => true
  | cssDisplayNoneStyleSheet | invalidAction => false

theorem ofByte_toByte {type : ActionType} (h : type.isRuleAction = true) :
    ofByte type.toByte = some type := by
  cases type <;> first | rfl | cases h

end ActionType

/-- A string with the width in which its characters are stored. -/
structure WTFString where
  characters : List UInt16
  is8Bit : Bool
  narrow : is8Bit = true → ∀ c ∈ characters, c.toNat < 256
  deriving DecidableEq

namespace WTFString

def empty : WTFString := ⟨[], true, by simp⟩

def ofUChars (characters : List UInt16) : WTFString := ⟨characters, false, by simp⟩

def ofLChars (characters : List UInt8) : WTFString :=
  ⟨characters.map fun c => UInt16.ofNat c.toNat, true, by
    intro _ c hc
    obtain ⟨b, _, rfl⟩ := List.mem_map.mp hc
    have hb := b.toNat_lt
    rw [UInt16.toNat_ofNat']
    omega⟩

end WTFString

inductive DomainCondition where
  | none
  | ifDomain
  | unlessDomain
  deriving DecidableEq, Repr

structure Trigger where
  urlFilter : List UInt16
  urlFilterIsCaseSensitive : Bool
  flags : ResourceFlags
  domains : List (List UInt16)
  domainCondition : DomainCondition
  deriving DecidableEq, Repr

structure Action where
  extensionIdentifier : List UInt16
  type : ActionType
  actionID : Nat
  stringArgument : WTFString
  deriving DecidableEq

def Action.setExtensionIdentifier (action : Action) (extensionIdentifier : List UInt16) : Action :=
  { action with extensionIdentifier := extensionIdentifier }

structure ContentExtensionRule where
  trigger : Trigger
  action : Action
  deriving DecidableEq

/-! ### Serialized actions -/

/-- `std::numeric_limits<unsigned>::max()`. -/
def maxUnsigned : Nat := 4294967295

/-- The bytes that `serializeSelector` appends. -/
def selectorBytes (selector : WTFString) : List SerializedActionByte :=
  ActionType.cssDisplayNoneSelector.toByte ::
    toLittleEndian 4 selector.characters.length ++
    (if selector.is8Bit then 0 else 1) ::
    (if selector.is8Bit then selector.characters.map fun c => UInt8.ofNat c.toNat
      else selector.characters.flatMap fun c => toLittleEndian 2 c.toNat)

/-- Characters of two bytes each. -/
def readUChars : List SerializedActionByte → List UInt16
  | low :: high :: rest => UInt16.ofNat (ofLittleEndian [low, high]) :: readUChars rest
  | _ => []

/-- `sizeof(ActionType) + sizeof(uint32_t) + sizeof(bool)`. -/
def headerLength : Nat := 6

/-- The length and the width in front of a selector's characters. -/
def selectorHeader (actions : List SerializedActionByte) (location : Nat) : Nat × Bool :=
  (ofLittleEndian ((actions.drop (location + 1)).take 4), actions.getD (location + 5) 0 ≠ 0)

def Action.deserializeType (actions : List SerializedActionByte) (location : Nat) :
    Option ActionType :=
  actions[location]?.bind ActionType.ofByte

def Action.deserialize (actions : List SerializedActionByte) (location : Nat) : Option Action :=
  match Action.deserializeType actions location with
  | none => none
  | some .cssDisplayNoneSelector =>
    let stringStartIndex := (location + headerLength) % (maxUnsigned + 1)
    let (selectorLength, wideCharacters) := selectorHeader actions location
    if actions.length < stringStartIndex then none
    else if wideCharacters then
      if actions.length < stringStartIndex + selectorLength * 2 then none
      else
        some ⟨[], .cssDisplayNoneSelector, location, WTFString.ofUChars
          (readUChars ((actions.drop stringStartIndex).take (selectorLength * 2)))⟩
    else
      if actions.length < stringStartIndex + selectorLength then none
      else
        some ⟨[], .cssDisplayNoneSelector, location, WTFString.ofLChars
          ((actions.drop stringStartIndex).take selectorLength)⟩
  | some type => some ⟨[], type, location, WTFString.empty⟩

end QtWebKit.ContentExtensions
