import QtWebKit.IndexedDB.MemoryIndex

/-! # Object stores and the undo information of their write transaction

A store operation reads and writes the store, the indexes registered with it and
the undo information of the transaction that is writing to it; the three are
passed as one `ObjectStoreState`.

## Implementation notes

Indexes live in a heap, since a store refers to each of them from two tables and
the transaction from several more. -/

namespace QtWebKit.IndexedDB

open Lib Function

/-- A null `ThreadSafeDataBuffer` is `none`. -/
abbrev KeyValueMap (Key Value : Type) := Table Key (Option Value)

structure MemoryBackingStoreTransaction (Key Value : Type) where
  isVersionChange : Bool
  originalDatabaseInfo : Option IDBDatabaseInfo
  isAborting : Bool
  objectStores : List Address
  versionChangeAddedObjectStores : List Address
  indexes : List Address
  versionChangeAddedIndexes : List Address
  originalKeyGenerators : Table Address Nat
  deletedObjectStores : Table String Address
  deletedIndexes : Table String Address
  originalValues : Table Address (KeyValueMap Key Value)
  clearedKeyValueMaps : Table Address (Option (KeyValueMap Key Value))
  clearedOrderedKeys : Table Address (Option (Finset Key))
  clearedIndexValueStores : Table Address (Option (IndexValueStore Key))

structure MemoryObjectStore (Key Value : Type) where
  info : IDBObjectStoreInfo
  /-- The transaction at hand is the write transaction of the store. -/
  writeTransaction : Bool
  keyGeneratorValue : Nat
  keyValueStore : Option (KeyValueMap Key Value)
  orderedKeys : Option (Finset Key)
  indexesByIdentifier : Table Nat Address
  indexesByName : Table String Address

/-- What the methods of an object store work on. -/
structure ObjectStoreState (Key Value : Type) where
  address : Address
  store : MemoryObjectStore Key Value
  heap : Address → MemoryIndex Key
  nextIndex : Address
  transaction : MemoryBackingStoreTransaction Key Value

variable {Key Value : Type}

namespace MemoryObjectStore

def create (info : IDBObjectStoreInfo) : MemoryObjectStore Key Value :=
  ⟨info, false, 1, none, none, ∅, ∅⟩

variable (store : MemoryObjectStore Key Value)

def registerIndex (info : IDBIndexInfo) (index : Address) : MemoryObjectStore Key Value :=
  { store with
    indexesByName := store.indexesByName.insert info.name index
    indexesByIdentifier := store.indexesByIdentifier.insert info.identifier index }

def setRecords (map : KeyValueMap Key Value)
    (orderedKeys : Finset Key) : MemoryObjectStore Key Value :=
  { store with keyValueStore := some map, orderedKeys := some orderedKeys }

/-- The two structures a record is added to, made at the first one. -/
def opened : KeyValueMap Key Value × Finset Key :=
  match store.keyValueStore with
  | none => (∅, ∅)
  | some map => (map, store.orderedKeys.getD ∅)

variable [IDBKeyData Key]

/-- The value of a record, if the store has one for the key. -/
def record (key : Key) : Option (Option Value) :=
  store.keyValueStore.bind fun map => map.lookup key

def containsRecord (key : Key) : Bool :=
  (store.record key).isSome

def lowestKeyWithRecordInRange (range : IDBKeyRangeData Key) : Option Key :=
  match store.keyValueStore, store.orderedKeys with
  | some map, some orderedKeys =>
    match range.exactlyOneKey with
    | some key => if (map.lookup key).isSome then some key else lowestInRange orderedKeys range
    | none => lowestInRange orderedKeys range
  | _, _ => none

end MemoryObjectStore

namespace MemoryBackingStoreTransaction

variable (transaction : MemoryBackingStoreTransaction Key Value)

def addNewIndex (index : Address) : MemoryBackingStoreTransaction Key Value :=
  { transaction with
    versionChangeAddedIndexes := transaction.versionChangeAddedIndexes.insert index
    indexes := transaction.indexes.insert index }

/-- The index is remembered under its name alone, the first one of each name. -/
def indexDeleted (index : Address) (name : String) (objectStore : Address)
    (objectStoreName : String) : MemoryBackingStoreTransaction Key Value :=
  let removed := { transaction with indexes := transaction.indexes.erase index }
  let remembered :=
    { removed with
      deletedIndexes := if (removed.deletedIndexes.lookup name).isSome then removed.deletedIndexes
        else removed.deletedIndexes.insert name index }
  match removed.deletedObjectStores.lookup objectStoreName with
  | some deletedObjectStore =>
    if deletedObjectStore ≠ objectStore then removed else remembered
  | none => remembered

/-- The records are moved away from the store by its first clearing; a store that has already
been cleared during this transaction keeps them. -/
def objectStoreCleared (objectStore : Address) (keyValueMap : Option (KeyValueMap Key Value))
    (orderedKeys : Option (Finset Key)) :
    MemoryBackingStoreTransaction Key Value × Option (KeyValueMap Key Value) ×
      Option (Finset Key) :=
  if (transaction.clearedKeyValueMaps.lookup objectStore).isSome then
    (transaction, keyValueMap, orderedKeys)
  else
    ({ transaction with
        clearedKeyValueMaps := transaction.clearedKeyValueMaps.insert objectStore keyValueMap
        clearedOrderedKeys := transaction.clearedOrderedKeys.insert objectStore orderedKeys },
      none, none)

/-- Likewise for the entries of an index. -/
def indexCleared (index : Address) (valueStore : Option (IndexValueStore Key)) :
    MemoryBackingStoreTransaction Key Value × Option (IndexValueStore Key) :=
  if (transaction.clearedIndexValueStores.lookup index).isSome then (transaction, valueStore)
  else
    ({ transaction with
        clearedIndexValueStores := transaction.clearedIndexValueStores.insert index valueStore },
      none)

/-- Only the first change of a key is recorded; a key without a record gets a null buffer. -/
def recordValueChanged [DecidableEq Key] (objectStore : Address) (key : Key)
    (value : Option (Option Value)) : MemoryBackingStoreTransaction Key Value :=
  if transaction.isAborting then transaction
  else if (transaction.clearedKeyValueMaps.lookup objectStore).isSome then transaction
  else
    let map := (transaction.originalValues.lookup objectStore).getD ∅
    { transaction with
      originalValues := transaction.originalValues.insert objectStore
        (if (map.lookup key).isSome then map else map.insert key value.join) }

end MemoryBackingStoreTransaction

namespace ObjectStoreState

variable [IDBKeyData Key] (script : Script Key Value) (enum : Enumeration)
  (state : ObjectStoreState Key Value)

/-- One index after the other. -/
def updateIndexes (heap : Address → MemoryIndex Key) (f : MemoryIndex Key → MemoryIndex Key)
    (indexes : List Address) : Address → MemoryIndex Key :=
  indexes.foldl (fun heap index => update heap index (f (heap index))) heap

def deleteRecord (key : Key) : ObjectStoreState Key Value :=
  let changed value :=
    { state with transaction := state.transaction.recordValueChanged state.address key value }
  match state.store.keyValueStore with
  | none => changed none
  | some map =>
    match map.lookup key with
    | none => changed none
    | some value =>
      { changed (some value) with
        store := { state.store with
            keyValueStore := some (map.erase key)
            orderedKeys := state.store.orderedKeys.map fun keys => keys.erase key }
        heap := updateIndexes state.heap (fun index => index.removeEntriesWithValueKey key)
          (enum.values state.store.indexesByName) }

/-- The loop of `deleteRange`, for as many rounds as there are keys. -/
def deleteKeysInRange :
    Nat → IDBKeyRangeData Key → ObjectStoreState Key Value → ObjectStoreState Key Value
  | 0, _, state => state
  | rounds + 1, range, state =>
    match state.store.lowestKeyWithRecordInRange range with
    | none => state
    | some key =>
      deleteKeysInRange rounds { range with lowerKey := some key, lowerOpen := true }
        (state.deleteRecord enum key)

def deleteRange (range : IDBKeyRangeData Key) : ObjectStoreState Key Value :=
  match range.exactlyOneKey with
  | some key => state.deleteRecord enum key
  | none => deleteKeysInRange enum (state.store.orderedKeys.getD ∅).card range state

/-- Put a record into the indexes up to the first one that refuses it, with the index keys
that went through. -/
def putIndexKeys (key : Key) (value : Option Value) :
    List Address → (Address → MemoryIndex Key) → List (Address × List Key) →
      (Address → MemoryIndex Key) × List (Address × List Key) × Option IDBError
  | [], heap, changedIndexRecords => (heap, changedIndexRecords, none)
  | index :: rest, heap, changedIndexRecords =>
    match script.generateIndexKeyForValue (heap index).info value with
    | [] => putIndexKeys key value rest heap changedIndexRecords
    | indexKey =>
      let (updated, error) := (heap index).putIndexKey key indexKey
      let heap := update heap index updated
      match error with
      | some error => (heap, changedIndexRecords, some error)
      | none => putIndexKeys key value rest heap (changedIndexRecords ++ [(index, indexKey)])

/-- What a refused put leaves in the indexes that had accepted it. -/
def revertIndexKeys (key : Key) (changedIndexRecords : List (Address × List Key))
    (heap : Address → MemoryIndex Key) : Address → MemoryIndex Key :=
  changedIndexRecords.foldl
    (fun heap record =>
      update heap record.1 ((heap record.1).removeRecord key record.2)) heap

def updateIndexesForPutRecord (key : Key)
    (value : Option Value) : (Address → MemoryIndex Key) × Option IDBError :=
  if script.yieldsNothing value then (state.heap, none)
  else
    let (heap, changedIndexRecords, error) :=
      putIndexKeys script key value (enum.values state.store.indexesByName) state.heap []
    match error with
    | none => (heap, none)
    | some error => (revertIndexKeys key changedIndexRecords heap, some error)

def addRecord (key : Key) (value : Option Value) : ObjectStoreState Key Value × Option IDBError :=
  let map := state.store.opened.1.insert key value
  let orderedKeys := insert key state.store.opened.2
  let update := updateIndexesForPutRecord script enum state key value
  match update.2 with
  | none =>
    ({ state with store := state.store.setRecords map orderedKeys, heap := update.1 }, none)
  | some error =>
    ({ state with
        store := state.store.setRecords (map.erase key) (orderedKeys.erase key)
        heap := update.1 }, some error)

/-- `objectStoreCleared` of an index. -/
def objectStoreCleared (index : Address) : ObjectStoreState Key Value :=
  let (transaction, records) := state.transaction.indexCleared index (state.heap index).records
  { state with
    heap := update state.heap index { state.heap index with records := records }
    transaction := transaction }

def clear : ObjectStoreState Key Value :=
  let (transaction, keyValueStore, orderedKeys) := state.transaction.objectStoreCleared
    state.address state.store.keyValueStore state.store.orderedKeys
  (enum.values state.store.indexesByIdentifier).foldl objectStoreCleared
    { state with
      store := { state.store with keyValueStore := keyValueStore, orderedKeys := orderedKeys }
      transaction := transaction }

/-- `populateIndexWithExistingRecords` over the records in the order of the hash table: it
ends at the first value that is undefined or null. -/
def populateIndexWithExistingRecords :
    List (Key × Option Value) → MemoryIndex Key → MemoryIndex Key × Option IDBError
  | [], index => (index, none)
  | (key, value) :: rest, index =>
    if script.yieldsNothing value then (index, none)
    else
      match script.generateIndexKeyForValue index.info value with
      | [] => populateIndexWithExistingRecords rest index
      | indexKey =>
        match index.putIndexKey key indexKey with
        | (updated, some error) => (updated, some error)
        | (updated, none) => populateIndexWithExistingRecords rest updated

/-- The records of the store as an iteration visits them. -/
def records : List (Key × Option Value) :=
  enum.entries (state.store.keyValueStore.getD ∅)

def createIndex (info : IDBIndexInfo) : ObjectStoreState Key Value × Option IDBError :=
  if state.store.writeTransaction && state.transaction.isVersionChange then
    match populateIndexWithExistingRecords script (state.records enum)
      (.create info state.address) with
    | (_, some error) => (state, some error)
    | (index, none) =>
      ({ state with
          store := { state.store with info := state.store.info.addExistingIndex info }.registerIndex
            info state.nextIndex
          heap := update state.heap state.nextIndex index
          nextIndex := state.nextIndex + 1
          transaction := state.transaction.addNewIndex state.nextIndex }, none)
  else (state, some .constraint)

def deleteIndex (indexIdentifier : Nat) : ObjectStoreState Key Value × Option IDBError :=
  if state.store.writeTransaction && state.transaction.isVersionChange then
    match state.store.indexesByIdentifier.lookup indexIdentifier with
    | none => (state, some .constraint)
    | some indexByIdentifier =>
      let name := (state.heap indexByIdentifier).info.name
      let taken :=
        { state.store with
          indexesByIdentifier := state.store.indexesByIdentifier.erase indexIdentifier
          indexesByName := state.store.indexesByName.erase name }
      match state.store.indexesByName.lookup name with
      | none => ({ state with store := taken }, some .constraint)
      | some index =>
        ({ state with
            store := { taken with info := taken.info.deleteIndex indexIdentifier }
            transaction := state.transaction.indexDeleted index (state.heap index).info.name
              state.address state.store.info.name }, none)
  else (state, some .constraint)

def deleteAllIndexes : ObjectStoreState Key Value :=
  let indexIdentifiers := (enum.values state.store.indexesByName).map fun index =>
    (state.heap index).info.identifier
  indexIdentifiers.foldl (fun state identifier => (state.deleteIndex identifier).1) state

def maybeRestoreDeletedIndex (index : Address) : ObjectStoreState Key Value :=
  let info := (state.heap index).info
  if state.store.info.hasIndex info.name then state
  else
    let populated := (populateIndexWithExistingRecords script (state.records enum)
      ((state.heap index).replaceIndexValueStore none)).1
    { state with
      store := { state.store with info := state.store.info.addExistingIndex info }.registerIndex
        info index
      heap := update state.heap index populated }

end ObjectStoreState

end QtWebKit.IndexedDB
