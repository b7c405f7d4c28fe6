import QtWebKit.IndexedDB.MemoryObjectStore

/-! # The memory backing store and one transaction on it

The state holds the registered object stores, a heap of stores and indexes, the
description of the database and the transaction that is running. `perform` is one
request of that transaction as the database thread carries it out, `abort` undoes
them.

## Implementation notes

`performPutOrAdd` finds its store by identifier in every call it makes to the
backing store; here the store is found once. A put without a key into a store that
generates none never reaches the server: `IDBObjectStore::putOrAdd` turns it down, and
`usedKey` returns the error of that check. The collections of an aborted transaction are not
emptied, since the transaction is destroyed. -/

namespace QtWebKit.IndexedDB

open Lib Function

variable {Key Value : Type} [IDBKeyData Key]

inductive ObjectStoreOverwriteMode
  | overwrite
  | overwriteForCursor
  | noOverwrite
  deriving DecidableEq, Repr

/-- A put as `IDBObjectStore::putOrAdd` sends it: it rejects a key that is not valid. -/
structure PutRequest (Key Value : Type) [IDBKeyData Key] where
  keyData : Option Key
  value : Option Value
  overwriteMode : ObjectStoreOverwriteMode
  isValid : ∀ key ∈ keyData, IDBKeyData.isValid key = true

/-- The largest number a key generator hands out. -/
def maxGeneratedKeyValue : Nat := 0x20000000000000

namespace ObjectStoreState

variable (script : Script Key Value) (enum : Enumeration)
  (state : ObjectStoreState Key Value)

def setKeyGeneratorValue (value : Nat) : ObjectStoreState Key Value :=
  { state with store := { state.store with keyGeneratorValue := value } }

/-- The generator moves only if the key was a generated one. -/
def setGeneratedKeyNumber : Option Nat → ObjectStoreState Key Value
  | some keyNumber => state.setKeyGeneratorValue keyNumber
  | none => state

def maybeUpdateKeyGeneratorNumber (newKeyNumber : Int) : ObjectStoreState Key Value :=
  if newKeyNumber < state.store.keyGeneratorValue then state
  else state.setKeyGeneratorValue (newKeyNumber.toNat + 1)

/-- The error of `IDBObjectStore::putOrAdd` for a put that has no key and gets none. -/
def missingKey (info : IDBObjectStoreInfo) : IDBError where
  code := .dataError
  message :=
    if info.keyPath.isNull then
      "Failed to store record in an IDBObjectStore: The object store uses out-of-line keys and " ++
        "has no key generator and the key parameter was not provided."
    else
      "Failed to store record in an IDBObjectStore: Evaluating the object store's key path did " ++
        "not yield a value."

/-- The key of a put with the generated number, if the key is a generated one. -/
def usedKey (info : IDBObjectStoreInfo) (state : ObjectStoreState Key Value)
    (request : PutRequest Key Value) : Except IDBError (Key × Option Nat) :=
  match request.keyData.filter IDBKeyData.isValid, info.autoIncrement, request.keyData with
  | none, true, _ =>
    let keyNumber := state.store.keyGeneratorValue
    if maxGeneratedKeyValue < keyNumber then
      .error ⟨.constraintError,
        "Cannot generate new key value over 2^53 for object store operation"⟩
    else .ok (IDBKeyData.setNumberValue keyNumber, some keyNumber)
  | _, _, some key => .ok (key, none)
  | _, _, none => .error (missingKey info)

/-- The value of the new record: a generated key is written into it along the key path. -/
def recordValue (info : IDBObjectStoreInfo) (key : Key) (generated : Bool)
    (value : Option Value) : Except IDBError (Option Value) :=
  if generated && !info.keyPath.isNull then
    match value with
    | none =>
      .error ⟨.constraintError, "Unable to deserialize record value for record key injection"⟩
    | some original =>
      match script.injectIDBKeyIntoScriptValue info.keyPath key original with
      | .error message => .error ⟨.constraintError, message⟩
      | .ok injected => .ok (some injected)
  else .ok value

/-- The checks of `performPutOrAdd` that come before anything is written: the key, the value
and the generated number of the put. -/
def checkPut (info : IDBObjectStoreInfo) (state : ObjectStoreState Key Value)
    (request : PutRequest Key Value) : Except IDBError (Key × Option Value × Option Nat) :=
  match usedKey info state request with
  | .error error => .error error
  | .ok (key, generated) =>
    if request.overwriteMode = .noOverwrite && state.store.containsRecord key then
      .error ⟨.constraintError, "Key already exists in the object store"⟩
    else
      match recordValue script info key generated.isSome request.value with
      | .error error => .error error
      | .ok value => .ok (key, value, generated)

/-- A generated number is given back if the put fails. -/
def performPutOrAdd (info : IDBObjectStoreInfo) (state : ObjectStoreState Key Value)
    (request : PutRequest Key Value) : ObjectStoreState Key Value × Except IDBError Key :=
  match checkPut script info state request with
  | .error error => (state, .error error)
  | .ok (key, value, generated) =>
    let counted := state.setGeneratedKeyNumber (generated.map (· + 1))
    let deleted := counted.deleteRange enum (.ofKey key)
    match deleted.addRecord script enum key value with
    | (added, some error) => (added.setGeneratedKeyNumber generated, .error error)
    | (added, none) =>
      (match decide (request.overwriteMode ≠ .overwriteForCursor) && info.autoIncrement,
          request.keyData.bind IDBKeyData.number with
        | true, some number => added.maybeUpdateKeyGeneratorNumber number
        | _, _ => added, .ok key)

/-- `replaceKeyValueStore` with the map of the first clear, if there was one. -/
def replaceKeyValueStore : ObjectStoreState Key Value :=
  match (state.transaction.clearedKeyValueMaps.lookup state.address).join with
  | none => state
  | some map =>
    { state with
      store := { state.store with
          keyValueStore := some map
          orderedKeys := (state.transaction.clearedOrderedKeys.lookup state.address).join } }

/-- Put a recorded value back through the ordinary delete and add. -/
def restoreRecord (entry : Key × Option Value) : ObjectStoreState Key Value :=
  ((state.deleteRecord enum entry.1).addRecord script enum entry.1 entry.2).1

/-- What an abort does to one store: the key generator, the map of the first clear, then every
recorded value. -/
def restoreRecords : ObjectStoreState Key Value :=
  let replaced := (state.setKeyGeneratorValue
    ((state.transaction.originalKeyGenerators.lookup state.address).getD 0)).replaceKeyValueStore
  match state.transaction.originalValues.lookup state.address with
  | none => replaced
  | some map =>
    (enum.entries map).foldl
      (fun state entry => state.restoreRecord script enum entry) replaced

end ObjectStoreState

structure MemoryIDBBackingStore (Key Value : Type) where
  databaseInfo : IDBDatabaseInfo
  objectStoresByIdentifier : Table Nat Address
  objectStoresByName : Table String Address
  stores : Address → MemoryObjectStore Key Value
  nextStore : Address
  heap : Address → MemoryIndex Key
  nextIndex : Address
  transaction : MemoryBackingStoreTransaction Key Value

/-- The requests of one writing transaction. -/
inductive Operation (Key Value : Type) [IDBKeyData Key]
  | createObjectStore (info : IDBObjectStoreInfo)
  | deleteObjectStore (objectStoreIdentifier : Nat)
  | clearObjectStore (objectStoreIdentifier : Nat)
  | createIndex (info : IDBIndexInfo)
  | deleteIndex (objectStoreIdentifier indexIdentifier : Nat)
  | putOrAdd (objectStoreIdentifier : Nat) (request : PutRequest Key Value)
  | deleteRange (objectStoreIdentifier : Nat) (range : IDBKeyRangeData Key)

namespace MemoryIDBBackingStore

variable (script : Script Key Value) (enum : Enumeration)
  (backing : MemoryIDBBackingStore Key Value)

/-- The store at an address with what its methods work on. -/
def objectStore (address : Address) : ObjectStoreState Key Value :=
  ⟨address, backing.stores address, backing.heap, backing.nextIndex, backing.transaction⟩

/-- Write back what a method of the store at an address has done. -/
def withObjectStore (state : ObjectStoreState Key Value) : MemoryIDBBackingStore Key Value :=
  { backing with
    stores := update backing.stores state.address state.store
    heap := state.heap
    nextIndex := state.nextIndex
    transaction := state.transaction }

def registerObjectStore (address : Address) : MemoryIDBBackingStore Key Value :=
  let info := (backing.stores address).info
  { backing with
    objectStoresByName := backing.objectStoresByName.insert info.name address
    objectStoresByIdentifier := backing.objectStoresByIdentifier.insert info.identifier address }

def unregisterObjectStore (address : Address) : MemoryIDBBackingStore Key Value :=
  let info := (backing.stores address).info
  { backing with
    objectStoresByName := backing.objectStoresByName.erase info.name
    objectStoresByIdentifier := backing.objectStoresByIdentifier.erase info.identifier }

def addExistingObjectStore (address : Address) : MemoryIDBBackingStore Key Value :=
  let store := backing.stores address
  { backing with
    stores := update backing.stores address { store with writeTransaction := true }
    transaction := { backing.transaction with
        objectStores := backing.transaction.objectStores.insert address
        originalKeyGenerators :=
          if (backing.transaction.originalKeyGenerators.lookup address).isSome then
            backing.transaction.originalKeyGenerators
          else backing.transaction.originalKeyGenerators.insert address store.keyGeneratorValue } }

/-- A transaction before any store has joined it. -/
def newTransaction (isVersionChange : Bool) : MemoryBackingStoreTransaction Key Value where
  isVersionChange := isVersionChange
  originalDatabaseInfo := if isVersionChange then some backing.databaseInfo else none
  isAborting := false
  objectStores := []
  versionChangeAddedObjectStores := []
  indexes := []
  versionChangeAddedIndexes := []
  originalKeyGenerators := ∅
  deletedObjectStores := ∅
  deletedIndexes := ∅
  originalValues := ∅
  clearedKeyValueMaps := ∅
  clearedOrderedKeys := ∅
  clearedIndexValueStores := ∅

/-- The stores that a transaction writes to: all of them for a version change, otherwise those
whose names it was opened with. -/
def scope (isVersionChange : Bool) (objectStores : List String) : List Address :=
  if isVersionChange then enum.values backing.objectStoresByIdentifier
  else ((enum.entries backing.objectStoresByName).filter fun entry =>
    objectStores.contains entry.1).map Prod.snd

/-- `beginTransaction` for a transaction that is not read-only. -/
def beginTransaction (isVersionChange : Bool)
    (objectStores : List String) : MemoryIDBBackingStore Key Value :=
  (backing.scope enum isVersionChange objectStores).foldl addExistingObjectStore
    { backing with transaction := backing.newTransaction isVersionChange }

def createObjectStore (info : IDBObjectStoreInfo) : MemoryIDBBackingStore Key Value :=
  if backing.databaseInfo.hasObjectStore info.name then backing
  else
    let address := backing.nextStore
    let created :=
      { backing with
        stores := update backing.stores address (.create info)
        nextStore := address + 1
        databaseInfo := backing.databaseInfo.addExistingObjectStore info
        transaction := { backing.transaction with
            versionChangeAddedObjectStores :=
              backing.transaction.versionChangeAddedObjectStores.insert address } }
    (created.addExistingObjectStore address).registerObjectStore address

/-- `MemoryBackingStoreTransaction::objectStoreDeleted`. -/
def objectStoreDeleted (address : Address) : MemoryIDBBackingStore Key Value :=
  let removed :=
    { backing with
      transaction := { backing.transaction with
          objectStores := backing.transaction.objectStores.erase address } }
  let stripped :=
    removed.withObjectStore ((removed.objectStore address).deleteAllIndexes enum)
  let name := (stripped.stores address).info.name
  { stripped with
    transaction := { stripped.transaction with
        deletedObjectStores := if (stripped.transaction.deletedObjectStores.lookup name).isSome then
            stripped.transaction.deletedObjectStores
          else stripped.transaction.deletedObjectStores.insert name address } }

def deleteObjectStore (identifier : Nat) : MemoryIDBBackingStore Key Value :=
  match backing.databaseInfo.infoForExistingObjectStore identifier,
      backing.objectStoresByIdentifier.lookup identifier with
  | some _, some address =>
    let name := (backing.stores address).info.name
    let taken :=
      { backing with
        objectStoresByIdentifier := backing.objectStoresByIdentifier.erase identifier
        objectStoresByName := backing.objectStoresByName.erase name
        databaseInfo := backing.databaseInfo.deleteObjectStore name }
    taken.objectStoreDeleted enum address
  | _, _ => backing

/-- A request to the store with an identifier. -/
def onObjectStore (identifier : Nat)
    (method : ObjectStoreState Key Value → ObjectStoreState Key Value) :
    MemoryIDBBackingStore Key Value :=
  match backing.objectStoresByIdentifier.lookup identifier with
  | none => backing
  | some address => backing.withObjectStore (method (backing.objectStore address))

def perform : Operation Key Value → MemoryIDBBackingStore Key Value
  | .createObjectStore info => backing.createObjectStore info
  | .deleteObjectStore identifier => backing.deleteObjectStore enum identifier
  | .clearObjectStore identifier =>
    backing.onObjectStore identifier fun state => state.clear enum
  | .createIndex info =>
    backing.onObjectStore info.objectStoreIdentifier fun state =>
      (state.createIndex script enum info).1
  | .deleteIndex identifier indexIdentifier =>
    backing.onObjectStore identifier fun state => (state.deleteIndex indexIdentifier).1
  | .putOrAdd identifier request =>
    match backing.databaseInfo.infoForExistingObjectStore identifier with
    | none => backing
    | some info =>
      backing.onObjectStore identifier fun state =>
        (state.performPutOrAdd script enum info request).1
  | .deleteRange identifier range =>
    backing.onObjectStore identifier fun state => state.deleteRange enum range

/-- A run of requests, each with the order in which its hash tables are visited. -/
def performAll (backing : MemoryIDBBackingStore Key Value) :
    List (Enumeration × Operation Key Value) → MemoryIDBBackingStore Key Value
  | [] => backing
  | (enum, operation) :: rest =>
    (backing.perform script enum operation).performAll rest

def removeObjectStoreForVersionChangeAbort (address : Address) : MemoryIDBBackingStore Key Value :=
  if (backing.objectStoresByIdentifier.lookup (backing.stores address).info.identifier).isSome then
    backing.unregisterObjectStore address
  else backing

def restoreDeletedObjectStore (address : Address) : MemoryIDBBackingStore Key Value :=
  let registered := backing.registerObjectStore address
  { registered with
    transaction := { registered.transaction with
        objectStores := registered.transaction.objectStores.insert address } }

def restoreObjectStore (address : Address) : MemoryIDBBackingStore Key Value :=
  backing.withObjectStore ((backing.objectStore address).restoreRecords script enum)

def restoreDeletedIndex (index : Address) : MemoryIDBBackingStore Key Value :=
  backing.withObjectStore
    ((backing.objectStore (backing.heap index).objectStore).maybeRestoreDeletedIndex
    script enum index)

/-- `finish`: the stores are free for the next transaction. -/
def finish : MemoryIDBBackingStore Key Value :=
  { backing with
    stores := backing.transaction.objectStores.foldl (fun stores address =>
        update stores address { stores address with writeTransaction := false })
      backing.stores }

/-- The registered stores as before the transaction. -/
def restoreObjectStores : MemoryIDBBackingStore Key Value :=
  let transaction := backing.transaction
  let removed := (enum.order transaction.versionChangeAddedObjectStores).foldl
    removeObjectStoreForVersionChangeAbort backing
  let restored := (enum.values transaction.deletedObjectStores).foldl
    restoreDeletedObjectStore removed
  { restored with
    databaseInfo := transaction.originalDatabaseInfo.getD restored.databaseInfo }

/-- `replaceIndexValueStore` for every index that was cleared. -/
def restoreClearedIndexes : MemoryIDBBackingStore Key Value :=
  { backing with
    heap := (enum.entries backing.transaction.clearedIndexValueStores).foldl
      (fun heap entry => update heap entry.1
        ((heap entry.1).replaceIndexValueStore entry.2)) backing.heap }

def abort : MemoryIDBBackingStore Key Value :=
  let aborting := { backing with transaction := { backing.transaction with isAborting := true } }
  let registered := (aborting.restoreObjectStores enum).restoreClearedIndexes enum
  let replayed := (enum.order registered.transaction.objectStores).foldl
    (fun backing address => backing.restoreObjectStore script enum address) registered
  let indexed := (enum.values replayed.transaction.deletedIndexes).foldl
    (fun backing index => backing.restoreDeletedIndex script enum index) replayed
  indexed.finish

end MemoryIDBBackingStore

end QtWebKit.IndexedDB
