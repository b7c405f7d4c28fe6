import QtWebKit.ContentExtensions.Rule
import Mathlib.Data.List.Sort

/-!
# Serializing the actions of a rule list

`serializeActions` writes the action of each rule and returns the location of
each. Equal actions share a location between two `ignore-previous-rules` rules
if their flags are equal, and selectors are collected by trigger and written
late. The backend sorts the locations of the rules that match a load and walks
them downwards.

## Implementation notes

A hash map is the list of its slots. The order in which the slots of the
selector map are visited depends on hash values, so it is a parameter that may
be any permutation. A vector whose size would not fit into an `unsigned`
crashes, which is `none`.
-/

namespace QtWebKit.ContentExtensions

/-! ### Combining selectors -/

namespace WTFString

/-- `StringBuilder::append(const String&)`. -/
def append (builder string : WTFString) : WTFString :=
  if string.characters = [] then builder
  else if builder.characters = [] then string
  else
    ⟨builder.characters ++ string.characters,
      builder.is8Bit && (string.is8Bit ||
        (string.characters.length = 1 && string.characters.all fun c => c.toNat < 256)), by
      intro h c hc
      simp only [Bool.and_eq_true, Bool.or_eq_true, List.all_eq_true, decide_eq_true_eq] at h
      rcases List.mem_append.mp hc with hc | hc
      · exact builder.narrow h.1 c hc
      · rcases h.2 with hnarrow | hchar
        · exact string.narrow hnarrow c hc
        · exact hchar.2 c hc⟩

/-- `StringBuilder::append(',')`. -/
def appendComma (builder : WTFString) : WTFString :=
  ⟨builder.characters ++ [44], builder.is8Bit, by
    intro h c hc
    rcases List.mem_append.mp hc with hc | hc
    · exact builder.narrow h c hc
    · rw [List.mem_singleton.mp hc]
      decide⟩

@[simp] theorem characters_append (bld string : WTFString) :
    (bld.append string).characters = bld.characters ++ string.characters := by
  rw [append]
  split_ifs with hs hb
  · rw [hs, List.append_nil]
  · rw [hb, List.nil_append]
  · rfl

@[simp] theorem characters_appendComma (bld : WTFString) :
    bld.appendComma.characters = bld.characters ++ [44] := rfl

end WTFString

/-- The loop of `resolvePendingDisplayNoneActions` over the selectors of a slot. -/
def combinedSelectors : List WTFString → WTFString
  | [] => WTFString.empty
  | first :: rest =>
    rest.foldl (fun builder selector => builder.appendComma.append selector)
      (WTFString.empty.append first)

/-! ### The serializer -/

structure PendingDisplayNoneActions where
  selectors : List WTFString
  clientLocations : List Nat

abbrev PendingDisplayNoneActionsMap : Type := List (Trigger × PendingDisplayNoneActions)

abbrev ActionMap : Type := List (ResourceFlags × Nat)

/-- The order in which the slots of a map are visited, after some actions were
written. -/
structure SlotOrder where
  visit : List SerializedActionByte → PendingDisplayNoneActionsMap → PendingDisplayNoneActionsMap
  perm : ∀ actions slots, (visit actions slots).Perm slots

def SlotOrder.insertion : SlotOrder := ⟨fun _ slots => slots, fun _ slots => List.Perm.refl slots⟩

structure SerializeState where
  actions : List SerializedActionByte
  actionLocations : List Nat
  blockLoadActionsMap : ActionMap
  blockCookiesActionsMap : ActionMap
  cssDisplayNoneActionsMap : PendingDisplayNoneActionsMap
  ignorePreviousRuleActionsMap : ActionMap
  makeHTTPSActionsMap : ActionMap

namespace SerializeState

def initial : SerializeState := ⟨[], [], [], [], [], [], []⟩

/-- The map that the rules of a type share their locations in. -/
def actionMap (state : SerializeState) : ActionType → ActionMap
  | .blockLoad => state.blockLoadActionsMap
  | .blockCookies => state.blockCookiesActionsMap
  | .ignorePreviousRules => state.ignorePreviousRuleActionsMap
  | .makeHTTPS => state.makeHTTPSActionsMap
  | _ => []

def setActionMap (state : SerializeState) (map : ActionMap) : ActionType → SerializeState
  | .blockLoad => { state with blockLoadActionsMap := map }
  | .blockCookies => { state with blockCookiesActionsMap := map }
  | .ignorePreviousRules => { state with ignorePreviousRuleActionsMap := map }
  | .makeHTTPS => { state with makeHTTPSActionsMap := map }
  | _ => state

end SerializeState

/-- Appending to the vector of actions. -/
def appendActions (actions bytes : List SerializedActionByte) :
    Option (List SerializedActionByte) :=
  if actions.length + bytes.length ≤ maxUnsigned then some (actions ++ bytes) else none

def serializeSelector (actions : List SerializedActionByte) (selector : WTFString) :
    Option (List SerializedActionByte) :=
  appendActions actions (selectorBytes selector)

/-- One round of `resolvePendingDisplayNoneActions`. -/
def resolveSlot (written : List SerializedActionByte × List Nat)
    (slot : Trigger × PendingDisplayNoneActions) : Option (List SerializedActionByte × List Nat) :=
  let actionLocation := written.1.length
  (serializeSelector written.1 (combinedSelectors slot.2.selectors)).map fun actions =>
    (actions, slot.2.clientLocations.foldl
      (fun locations clientLocation => locations.set clientLocation actionLocation) written.2)

def resolvePendingDisplayNoneActions (order : SlotOrder) (state : SerializeState) :
    Option SerializeState :=
  ((order.visit state.actions state.cssDisplayNoneActionsMap).foldlM resolveSlot
      (state.actions, state.actionLocations)).map fun written =>
    { state with
      actions := written.1
      actionLocations := written.2
      cssDisplayNoneActionsMap := [] }

/-- The maps that a rule clears before its action is placed. -/
def clearMaps (order : SlotOrder) (state : SerializeState) (actionType : ActionType) :
    Option SerializeState :=
  if actionType = .ignorePreviousRules then
    (resolvePendingDisplayNoneActions order state).map fun state =>
      { state with
        blockLoadActionsMap := []
        blockCookiesActionsMap := []
        cssDisplayNoneActionsMap := []
        makeHTTPSActionsMap := [] }
  else some { state with ignorePreviousRuleActionsMap := [] }

/-- A rule with domains is just pushed. -/
def pushAction (state : SerializeState) (action : Action) : Option SerializeState :=
  (if action.type = .cssDisplayNoneSelector then
      serializeSelector state.actions action.stringArgument
    else appendActions state.actions [action.type.toByte]).map fun actions =>
    { state with
      actions := actions
      actionLocations := state.actionLocations ++ [state.actions.length] }

def findOrMakeActionLocation (state : SerializeState) (actionType : ActionType)
    (flags : ResourceFlags) : Option SerializeState :=
  match (state.actionMap actionType).lookup flags with
  | some actionLocation =>
    some { state with actionLocations := state.actionLocations ++ [actionLocation] }
  | none =>
    (appendActions state.actions [actionType.toByte]).map fun actions =>
      let actionLocation := state.actions.length
      { state.setActionMap ((flags, actionLocation) :: state.actionMap actionType) actionType with
        actions := actions
        actionLocations := state.actionLocations ++ [actionLocation] }

/-- Add a selector to the slot of its trigger. -/
def addPending (trigger : Trigger) (selector : WTFString) (clientLocation : Nat) :
    PendingDisplayNoneActionsMap → PendingDisplayNoneActionsMap
  | [] => [(trigger, ⟨[selector], [clientLocation]⟩)]
  | slot :: rest =>
    if slot.1 = trigger then
      (slot.1, ⟨slot.2.selectors ++ [selector], slot.2.clientLocations ++ [clientLocation]⟩) :: rest
    else slot :: addPending trigger selector clientLocation rest

/-- The selector's location stays `max` until the slot is resolved. -/
def addPendingSelector (state : SerializeState) (rule : ContentExtensionRule) : SerializeState :=
  { state with
    cssDisplayNoneActionsMap :=
      addPending rule.trigger rule.action.stringArgument state.actionLocations.length
        state.cssDisplayNoneActionsMap
    actionLocations := state.actionLocations ++ [maxUnsigned] }

/-- The `switch` on the type of a rule without domains. -/
def placeAction (state : SerializeState) (rule : ContentExtensionRule) : Option SerializeState :=
  match rule.action.type with
  | .cssDisplayNoneStyleSheet | .invalidAction => none
  | .cssDisplayNoneSelector => some (addPendingSelector state rule)
  | actionType => findOrMakeActionLocation state actionType rule.trigger.flags

/-- One round of the loop of `serializeActions`. -/
def serializeRule (order : SlotOrder) (state : SerializeState) (rule : ContentExtensionRule) :
    Option SerializeState :=
  (clearMaps order state rule.action.type).bind fun state =>
    if rule.trigger.domains ≠ [] then pushAction state rule.action else placeAction state rule

def serializeActions (order : SlotOrder) (ruleList : List ContentExtensionRule) :
    Option (List Nat × List SerializedActionByte) :=
  ((ruleList.foldlM (serializeRule order) SerializeState.initial).bind
      (resolvePendingDisplayNoneActions order)).map fun state =>
    (state.actionLocations, state.actions)

/-! ### The backend's walk over the locations -/

/-- The loop of `actionsForResourceLoad` over locations in descending order,
with the final value of `sawIgnorePreviousRules`. -/
def scanActions (identifier : List UInt16) (actions : List SerializedActionByte) :
    List Nat → Option (List Action × Bool)
  | [] => some ([], false)
  | location :: rest =>
    match Action.deserialize actions location with
    | none => none
    | some action =>
      if action.type = .ignorePreviousRules then some ([], true)
      else
        (scanActions identifier actions rest).map fun scanned =>
          (action.setExtensionIdentifier identifier :: scanned.1, scanned.2)

end QtWebKit.ContentExtensions
