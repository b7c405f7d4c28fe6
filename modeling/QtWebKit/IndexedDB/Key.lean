import QtWebKit.Lib.Table
import Mathlib.Data.Finset.Sort

/-! # Keys, key ranges and the descriptions of stores and indexes

The server compares keys, stores them in hash tables and ordered sets, and
builds number keys and array keys. Nothing else of a key is read, so the key
type is a parameter: a linear order in which equal keys are the keys that the
hash tables identify.

## Implementation notes

A null key is `none`. Deserialising a record value and reading a key path from
it belong to the script engine and enter through `Script`. -/

namespace QtWebKit.IndexedDB

open Lib Table

/-- What the server uses of `IDBKeyData`. -/
class IDBKeyData (Key : Type) extends LinearOrder Key where
  isValid : Key → Bool
  setNumberValue : Nat → Key
  isValid_setNumberValue : ∀ number, isValid (setNumberValue number) = true
  setArrayValue : List Key → Key
  /-- The integer below the value of a number key. -/
  number : Key → Option Int

inductive ExceptionCode
  | constraintError
  | dataError
  | invalidStateError
  deriving DecidableEq, Repr

structure IDBError where
  code : ExceptionCode
  message : String
  deriving DecidableEq, Repr

/-- The error without a message of its own that every constraint check returns. -/
def IDBError.constraint : IDBError := ⟨.constraintError, ""⟩

inductive IDBKeyPath
  | null
  | string (path : String)
  | array (paths : List String)
  deriving DecidableEq, Repr

def IDBKeyPath.isNull : IDBKeyPath → Bool
  | .null => true
  | _ => false

structure IDBIndexInfo where
  identifier : Nat
  objectStoreIdentifier : Nat
  name : String
  keyPath : IDBKeyPath
  unique : Bool
  multiEntry : Bool
  deriving DecidableEq, Repr

structure IDBObjectStoreInfo where
  identifier : Nat
  name : String
  keyPath : IDBKeyPath
  autoIncrement : Bool
  maxIndexID : Nat
  indexMap : Table Nat IDBIndexInfo

namespace IDBObjectStoreInfo

def addExistingIndex (info : IDBObjectStoreInfo) (index : IDBIndexInfo) : IDBObjectStoreInfo :=
  { info with
    maxIndexID := max info.maxIndexID index.identifier
    indexMap := info.indexMap.insert index.identifier index }

def hasIndex (info : IDBObjectStoreInfo) (name : String) : Bool :=
  info.indexMap.entries.any fun entry => entry.2.name = name

def deleteIndex (info : IDBObjectStoreInfo) (indexIdentifier : Nat) : IDBObjectStoreInfo :=
  { info with indexMap := info.indexMap.erase indexIdentifier }

theorem hasIndex_iff {info : IDBObjectStoreInfo} {name} :
    info.hasIndex name = true ↔
      ∃ ident idx, info.indexMap.lookup ident = some idx ∧ idx.name = name := by
  rw [hasIndex, List.any_eq_true]
  constructor
  · rintro ⟨ent, he, hnm⟩
    exact ⟨ent.1, ent.2, lookup_eq_some_iff.mpr he, of_decide_eq_true hnm⟩
  · rintro ⟨ident, idx, hlk, hnm⟩
    exact ⟨⟨ident, idx⟩, lookup_eq_some_iff.mp hlk, decide_eq_true hnm⟩

end IDBObjectStoreInfo

structure IDBDatabaseInfo where
  name : String
  version : Nat
  maxObjectStoreID : Nat
  objectStoreMap : Table Nat IDBObjectStoreInfo

namespace IDBDatabaseInfo

def addExistingObjectStore (info : IDBDatabaseInfo) (store : IDBObjectStoreInfo) :
    IDBDatabaseInfo :=
  { info with
    maxObjectStoreID := max info.maxObjectStoreID store.identifier
    objectStoreMap := info.objectStoreMap.insert store.identifier store }

def hasObjectStore (info : IDBDatabaseInfo) (name : String) : Bool :=
  info.objectStoreMap.entries.any fun entry => entry.2.name = name

def infoForExistingObjectStore (info : IDBDatabaseInfo) (identifier : Nat) :
    Option IDBObjectStoreInfo :=
  info.objectStoreMap.lookup identifier

/-- Removal by name: the first description of that name goes. -/
def deleteObjectStore (info : IDBDatabaseInfo) (name : String) : IDBDatabaseInfo :=
  match info.objectStoreMap.entries.find? fun entry => entry.2.name = name with
  | none => info
  | some entry => { info with objectStoreMap := info.objectStoreMap.erase entry.2.identifier }

theorem hasObjectStore_iff {info : IDBDatabaseInfo} {name} :
    info.hasObjectStore name = true ↔
      ∃ ident store, info.objectStoreMap.lookup ident = some store ∧
        store.name = name := by
  rw [hasObjectStore, List.any_eq_true]
  constructor
  · rintro ⟨ent, he, hnm⟩
    exact ⟨ent.1, ent.2, lookup_eq_some_iff.mpr he, of_decide_eq_true hnm⟩
  · rintro ⟨ident, store, hlk, hnm⟩
    exact ⟨⟨ident, store⟩, lookup_eq_some_iff.mp hlk, decide_eq_true hnm⟩

end IDBDatabaseInfo

section

variable {Key : Type} [IDBKeyData Key]

structure IDBKeyRangeData (Key : Type) where
  isNull : Bool
  lowerKey : Option Key
  upperKey : Option Key
  lowerOpen : Bool
  upperOpen : Bool

namespace IDBKeyRangeData

/-- The range of one key. -/
def ofKey (key : Key) : IDBKeyRangeData Key :=
  ⟨false, some key, some key, false, false⟩

/-- The one key of the range, if its two ends are closed, valid and equal. -/
def exactlyOneKey (range : IDBKeyRangeData Key) : Option Key :=
  if range.isNull || range.lowerOpen || range.upperOpen then none
  else
    match range.upperKey, range.lowerKey with
    | some upper, some lower =>
      if IDBKeyData.isValid upper && IDBKeyData.isValid lower && lower = upper then some lower
      else none
    | _, _ => none

end IDBKeyRangeData

/-- The first key of an ordered set at which a condition holds. -/
def firstKey (keys : Finset Key) (condition : Key → Bool) : Option Key :=
  (keys.sort (· ≤ ·)).find? condition

theorem mem_of_firstKey {keys} {cond : Key → Bool} {key : Key}
    (h : firstKey keys cond = some key) : key ∈ keys :=
  (Finset.mem_sort _).mp (List.mem_of_find?_eq_some h)

/-- The lowest key of an ordered set inside a range: `lower_bound`, a step over an open
lower end, then the upper end. -/
def lowestInRange (keys : Finset Key) (range : IDBKeyRangeData Key) : Option Key :=
  (firstKey keys fun key => range.lowerKey.all (· ≤ key)).bind fun bound =>
    (if range.lowerOpen && range.lowerKey = some bound then firstKey keys (bound < ·)
      else some bound).bind fun lowest =>
        match range.upperKey with
        | none => some lowest
        | some upper =>
          if upper < lowest then none
          else if range.upperOpen && lowest = upper then none
          else some lowest

/-- `IndexKey::asOneKey`, for an index key that is not null. -/
def IndexKey.asOneKey : List Key → Key
  | [key] => key
  | keys => IDBKeyData.setArrayValue keys

/-- `IndexKey::multiEntry`: the valid keys, each one once. -/
def IndexKey.multiEntry (keys : List Key) : List Key :=
  keys.foldl
    (fun entries key =>
      if IDBKeyData.isValid key && !entries.contains key then entries ++ [key] else entries) []

/-- The part of the script engine that the server calls. -/
structure Script (Key Value : Type) where
  /-- A stored value deserialises to `undefined` or `null`. -/
  isUndefinedOrNull : Value → Bool
  createKeyPathArray : IDBIndexInfo → Value → List Key
  /-- A value with a generated key written into it, or the message of the failure. -/
  injectIDBKeyIntoScriptValue : IDBKeyPath → Key → Value → Except String Value

variable {Value : Type} (script : Script Key Value)

/-- `idbValueDataToJSValue` of a null buffer is undefined as well. -/
def Script.yieldsNothing : Option Value → Bool
  | none => true
  | some value => script.isUndefinedOrNull value

/-- `generateIndexKeyForValue` under the test for undefined and null that precedes it.
The empty list is the null index key. -/
def Script.generateIndexKeyForValue (info : IDBIndexInfo) : Option Value → List Key
  | none => []
  | some value =>
    if script.isUndefinedOrNull value then [] else script.createKeyPathArray info value

/-- The keys under which an index key is entered. -/
def IDBIndexInfo.entryKeys (info : IDBIndexInfo) (indexKey : List Key) : List Key :=
  if info.multiEntry then IndexKey.multiEntry indexKey else [IndexKey.asOneKey indexKey]

/-- The keys under which an index has to hold a record with the given value. -/
def Script.indexKeys (info : IDBIndexInfo) (value : Option Value) : List Key :=
  match script.generateIndexKeyForValue info value with
  | [] => []
  | indexKey => info.entryKeys indexKey

theorem Script.indexKeys_of_null {info val}
    (h : script.generateIndexKeyForValue info val = []) : script.indexKeys info val = [] := by
  rw [Script.indexKeys, h]

theorem Script.indexKeys_of_ne_null {info : IDBIndexInfo} {val}
    (h : script.generateIndexKeyForValue info val ≠ []) :
    script.indexKeys info val =
      info.entryKeys (script.generateIndexKeyForValue info val) := by
  rw [Script.indexKeys]
  split
  · exact absurd ‹_› h
  · rfl

end

/-- Number keys only, in which every key is valid. -/
instance : IDBKeyData Nat where
  isValid _ := true
  setNumberValue number := number
  isValid_setNumberValue _ := rfl
  setArrayValue keys := keys.foldl Nat.add 0
  number key := some key

end QtWebKit.IndexedDB
