import QtWebKit.IndexedDB.StoreRestore

/-! # What a method of a store leaves alone

An index belongs to one object store, and a method of a store changes nothing that
belongs to another: not the indexes, and not the undo information. This needs no
more than that the store lists only indexes of its own, and every method keeps
that. -/

namespace QtWebKit.IndexedDB

open Lib Option Function Table

variable {Key Value : Type}

namespace MemoryBackingStoreTransaction

variable {first snd : MemoryBackingStoreTransaction Key Value}

theorem SameUndo.mono {addr} {idxs idxs' : Address → Prop}
    (h : SameUndo addr idxs first snd) (hix : ∀ idx, idxs' idx → idxs idx) :
    SameUndo addr idxs' first snd :=
  ⟨h.isAborting, h.originalKeyGenerators, h.originalValues, h.clearedKeyValueMaps,
    h.clearedOrderedKeys, fun idx hi => h.clearedIndexValueStores idx (hix idx hi)⟩

end MemoryBackingStoreTransaction

namespace ObjectStoreState

open MemoryBackingStoreTransaction

variable {pre middle after st : ObjectStoreState Key Value}

/-- The indexes in one of the two tables of a store. -/
def Knows (state : ObjectStoreState Key Value) (index : Address) : Prop :=
  state.Registered index ∨ ∃ identifier, state.store.indexesByIdentifier.lookup identifier =
    some index

def OwnsIndexes (state : ObjectStoreState Key Value) : Prop :=
  ∀ index, state.Knows index →
    index < state.nextIndex ∧ (state.heap index).objectStore = state.address

/-- The indexes of other stores. -/
def Foreign (state : ObjectStoreState Key Value) (index : Address) : Prop :=
  index < state.nextIndex ∧ (state.heap index).objectStore ≠ state.address

theorem OwnsIndexes.not_knows_of_foreign (h : st.OwnsIndexes) {idx}
    (hi : st.Foreign idx) : ¬ st.Knows idx :=
  fun hk => hi.2 (h idx hk).2

/-- A step of a store with an effect on this store alone. -/
structure Confined (before after : ObjectStoreState Key Value) : Prop where
  address : after.address = before.address
  nextIndex : before.nextIndex ≤ after.nextIndex
  name : after.store.info.name = before.store.info.name
  identifier : after.store.info.identifier = before.store.info.identifier
  owns : after.OwnsIndexes
  indexInfo : ∀ index < before.nextIndex, (after.heap index).info = (before.heap index).info
  indexStore : ∀ index < before.nextIndex,
    (after.heap index).objectStore = (before.heap index).objectStore
  foreign : ∀ index, before.Foreign index → after.heap index = before.heap index
  scope : SameScope before.transaction after.transaction
  undo : ∀ other, other ≠ before.address →
    SameUndo other before.Foreign before.transaction after.transaction
  deletedIndexes : ∀ name index, before.transaction.deletedIndexes.lookup name = some index →
    after.transaction.deletedIndexes.lookup name = some index
  newlyDeleted : ∀ name index, after.transaction.deletedIndexes.lookup name = some index →
    before.transaction.deletedIndexes.lookup name = some index ∨
      index < after.nextIndex ∧ (after.heap index).objectStore = after.address ∧
        (after.heap index).info.name = name

theorem Confined.refl (h : st.OwnsIndexes) : Confined st st where
  address := rfl
  nextIndex := le_rfl
  name := rfl
  identifier := rfl
  owns := h
  indexInfo _ _ := rfl
  indexStore _ _ := rfl
  foreign _ _ := rfl
  scope := SameScope.refl _
  undo _ _ := SameUndo.refl _ _ _
  deletedIndexes _ _ hlk := hlk
  newlyDeleted _ _ hlk := .inl hlk

theorem Confined.foreign_after (h : Confined pre after) {idx}
    (hi : pre.Foreign idx) : after.Foreign idx := by
  refine ⟨hi.1.trans_le h.nextIndex, ?_⟩
  rw [h.indexStore idx hi.1, h.address]
  exact hi.2

theorem Confined.trans (h : Confined pre middle) (h' : Confined middle after) :
    Confined pre after where
  address := h'.address.trans h.address
  nextIndex := h.nextIndex.trans h'.nextIndex
  name := h'.name.trans h.name
  identifier := h'.identifier.trans h.identifier
  owns := h'.owns
  indexInfo idx hi :=
    (h'.indexInfo idx (hi.trans_le h.nextIndex)).trans (h.indexInfo idx hi)
  indexStore idx hi :=
    (h'.indexStore idx (hi.trans_le h.nextIndex)).trans (h.indexStore idx hi)
  foreign idx hi :=
    (h'.foreign idx (h.foreign_after hi)).trans (h.foreign idx hi)
  scope := h.scope.trans h'.scope
  undo oth ho :=
    (h.undo oth ho).trans ((h'.undo oth (by rwa [h.address])).mono fun _ hi =>
      h.foreign_after hi)
  deletedIndexes name idx hlk :=
    h'.deletedIndexes name idx (h.deletedIndexes name idx hlk)
  newlyDeleted name idx hlk := by
    rcases h'.newlyDeleted name idx hlk with hmd | hw
    · rcases h.newlyDeleted name idx hmd with hb | ⟨hlt, hso, hnm⟩
      · exact .inl hb
      · refine .inr ⟨hlt.trans_le h'.nextIndex, ?_, ?_⟩
        · rw [h'.indexStore idx hlt, hso, h'.address]
        · rw [h'.indexInfo idx hlt, hnm]
    · exact .inr hw

/-- A fold of steps with an effect on the store alone. -/
theorem Confined.foldl {α : Type} {step}
    (hs : ∀ (st : ObjectStoreState Key Value) item, st.OwnsIndexes → Confined st (step st item))
    (items : List α) (h : st.OwnsIndexes) : Confined st (items.foldl step st) := by
  induction items generalizing st with
  | nil => exact Confined.refl h
  | cons first rest ih => exact (hs st first h).trans (ih (hs st first h).owns)

/-- A step that changes records and entries of the store's own indexes. -/
structure RecordsOnly (before after : ObjectStoreState Key Value) : Prop where
  confined : Confined before after
  info : after.store.info = before.store.info
  indexesByName : after.store.indexesByName = before.store.indexesByName
  indexesByIdentifier : after.store.indexesByIdentifier = before.store.indexesByIdentifier
  deletedIndexes : after.transaction.deletedIndexes = before.transaction.deletedIndexes

theorem RecordsOnly.refl (h : st.OwnsIndexes) : RecordsOnly st st :=
  ⟨Confined.refl h, rfl, rfl, rfl, rfl⟩

theorem RecordsOnly.trans (h : RecordsOnly pre middle) (h' : RecordsOnly middle after) :
    RecordsOnly pre after :=
  ⟨h.confined.trans h'.confined, h'.info.trans h.info, h'.indexesByName.trans h.indexesByName,
    h'.indexesByIdentifier.trans h.indexesByIdentifier, h'.deletedIndexes.trans h.deletedIndexes⟩

theorem RecordsOnly.owns (h : RecordsOnly pre after) : after.OwnsIndexes :=
  h.confined.owns

theorem RecordsOnly.foldl {α : Type} {step}
    (hs : ∀ (st : ObjectStoreState Key Value) item, st.OwnsIndexes → RecordsOnly st (step st item))
    (items : List α) (h : st.OwnsIndexes) : RecordsOnly st (items.foldl step st) := by
  induction items generalizing st with
  | nil => exact RecordsOnly.refl h
  | cons first rest ih => exact (hs st first h).trans (ih (hs st first h).owns)

section

variable {scr : Script Key Value} {enum : Enumeration}

theorem sameIndexes_updateIndexes (f : MemoryIndex Key → MemoryIndex Key)
    (hio : ∀ idx, (f idx).info = idx.info) (hso : ∀ idx, (f idx).objectStore = idx.objectStore)
    {idxs all} (hsb : idxs ⊆ all) {start heap} (h : SameIndexes all start heap) :
    SameIndexes all start (updateIndexes heap f idxs) := by
  induction idxs generalizing heap with
  | nil => exact h
  | cons first rest ih =>
    rw [List.cons_subset] at hsb
    exact ih hsb.2 (h.update hsb.1 (hio _) (hso _))

/-- A change of the records, of entries of the store's own indexes and of its own undo
information. -/
theorem recordsOnly_of_sameIndexes (idxs : List Address) (h : pre.OwnsIndexes)
    (hix : ∀ idx ∈ idxs, pre.Knows idx) (ha : after.address = pre.address)
    (hnx : after.nextIndex = pre.nextIndex) (hio : after.store.info = pre.store.info)
    (hby : after.store.indexesByName = pre.store.indexesByName)
    (hbd : after.store.indexesByIdentifier = pre.store.indexesByIdentifier)
    (hhp : SameIndexes idxs pre.heap after.heap) (hsc : SameScope pre.transaction after.transaction)
    (hdl : after.transaction.deletedIndexes = pre.transaction.deletedIndexes)
    (hu : ∀ oth, oth ≠ pre.address →
      SameUndo oth pre.Foreign pre.transaction after.transaction) : RecordsOnly pre after where
  confined :=
    { address := ha
      nextIndex := hnx.ge
      name := by rw [hio]
      identifier := by rw [hio]
      owns := fun idx hi => by
        rw [Knows, Registered, hby, hbd] at hi
        rw [hnx, hhp.objectStore, ha]
        exact h idx hi
      indexInfo := fun idx _ => hhp.info idx
      indexStore := fun idx _ => hhp.objectStore idx
      foreign := fun idx hi =>
        hhp.heap idx fun hm => h.not_knows_of_foreign hi (hix idx hm)
      scope := hsc
      undo := hu
      deletedIndexes := fun name idx hlk => by rwa [hdl]
      newlyDeleted := fun name idx hlk => .inl (by rwa [← hdl]) }
  info := hio
  indexesByName := hby
  indexesByIdentifier := hbd
  deletedIndexes := hdl

/-- A change of the store's own fields. -/
theorem recordsOnly_of_store (h : pre.OwnsIndexes) {store : MemoryObjectStore Key Value}
    (hio : store.info = pre.store.info) (hby : store.indexesByName = pre.store.indexesByName)
    (hbd : store.indexesByIdentifier = pre.store.indexesByIdentifier) :
    RecordsOnly pre { pre with store := store } :=
  recordsOnly_of_sameIndexes [] h (fun _ hm => absurd hm List.not_mem_nil) rfl rfl hio hby hbd
    (SameIndexes.refl [] pre.heap) (SameScope.refl _) rfl fun _ _ => SameUndo.refl _ _ _

theorem recordsOnly_setKeyGeneratorValue (h : st.OwnsIndexes) (val : Nat) :
    RecordsOnly st (st.setKeyGeneratorValue val) :=
  recordsOnly_of_store h rfl rfl rfl

theorem recordsOnly_setGeneratedKeyNumber (h : st.OwnsIndexes) (val : Option Nat) :
    RecordsOnly st (st.setGeneratedKeyNumber val) := by
  cases val with
  | none => exact RecordsOnly.refl h
  | some val => exact recordsOnly_setKeyGeneratorValue h val

theorem recordsOnly_maybeUpdateKeyGeneratorNumber (h : st.OwnsIndexes) (number : Int) :
    RecordsOnly st (st.maybeUpdateKeyGeneratorNumber number) := by
  rw [maybeUpdateKeyGeneratorNumber]
  split
  · exact RecordsOnly.refl h
  · exact recordsOnly_setKeyGeneratorValue h _

variable [IDBKeyData Key]

theorem recordsOnly_deleteRecord (h : st.OwnsIndexes) (key : Key) :
    RecordsOnly st (st.deleteRecord enum key) := by
  have hsh := @sameSchema_recordValueChanged Key Value _ st.transaction st.address key
  have hu (val) (oth) (ho : oth ≠ st.address) :=
    @sameUndo_recordValueChanged Key Value _ st.transaction st.address key val oth ho
      st.Foreign
  cases hrc : st.store.record key with
  | none =>
    rw [deleteRecord_of_record_eq_none enum hrc]
    exact recordsOnly_of_sameIndexes [] h (fun _ hm => absurd hm List.not_mem_nil) rfl rfl rfl rfl
      rfl (SameIndexes.refl [] _) hsh.toSameScope hsh.deletedIndexes (hu none)
  | some val =>
    obtain ⟨map, -, heq⟩ := deleteRecord_of_record_eq_some enum hrc
    rw [heq]
    refine recordsOnly_of_sameIndexes (enum.values st.store.indexesByName) h
      (fun idx hm => .inl (mem_values_iff.mp hm)) rfl rfl rfl rfl rfl ?_ hsh.toSameScope
        hsh.deletedIndexes (hu (some val))
    exact sameIndexes_updateIndexes (fun idx => idx.removeEntriesWithValueKey key)
      (fun _ => rfl) (fun _ => rfl) (List.Subset.refl _)
      (SameIndexes.refl _ _)

theorem recordsOnly_deleteKeysInRange (rounds : Nat) (rng : IDBKeyRangeData Key)
    (h : st.OwnsIndexes) : RecordsOnly st (deleteKeysInRange enum rounds rng st) := by
  induction rounds generalizing rng st with
  | zero => exact RecordsOnly.refl h
  | succ rounds ih =>
    rw [deleteKeysInRange]
    split
    · exact RecordsOnly.refl h
    case h_2 key _ =>
      have hdl : RecordsOnly st (st.deleteRecord enum key) :=
        recordsOnly_deleteRecord h key
      exact hdl.trans (ih _ hdl.owns)

theorem recordsOnly_deleteRange (h : st.OwnsIndexes) (rng : IDBKeyRangeData Key) :
    RecordsOnly st (st.deleteRange enum rng) := by
  rw [deleteRange]
  split
  · exact recordsOnly_deleteRecord h _
  · exact recordsOnly_deleteKeysInRange _ rng h

theorem recordsOnly_addRecord (h : st.OwnsIndexes) (key : Key) (val : Option Value) :
    RecordsOnly st (st.addRecord scr enum key val).1 := by
  have hhp : SameIndexes (enum.values st.store.indexesByName) st.heap
      (updateIndexesForPutRecord scr enum st key val).1 :=
    sameIndexes_updateIndexesForPutRecord
  have hrs (map) (orderedKeys) :=
    @recordsOnly_of_sameIndexes Key Value st
      { st with
        store := st.store.setRecords map orderedKeys
        heap := (updateIndexesForPutRecord scr enum st key val).1 }
      (enum.values st.store.indexesByName) h
      (fun idx hm => .inl (mem_values_iff.mp hm)) rfl rfl rfl rfl rfl hhp
      (SameScope.refl _) rfl fun _ _ => SameUndo.refl _ _ _
  rw [addRecord]
  split
  · exact hrs _ _
  · exact hrs _ _

theorem recordsOnly_performPutOrAdd (h : st.OwnsIndexes) (info : IDBObjectStoreInfo)
    (request : PutRequest Key Value) :
    RecordsOnly st (st.performPutOrAdd scr enum info request).1 := by
  rw [performPutOrAdd]
  split
  · exact RecordsOnly.refl h
  case h_2 key val gen _ =>
    have hc := recordsOnly_setGeneratedKeyNumber h (gen.map (· + 1))
    have hdl : RecordsOnly _ (deleteRange enum _ (.ofKey key)) :=
      recordsOnly_deleteRange hc.owns (.ofKey key)
    have had : RecordsOnly _ (addRecord scr enum _ key val).1 :=
      recordsOnly_addRecord hdl.owns key val
    have hrs := (hc.trans hdl).trans had
    dsimp only
    rcases hadd : addRecord scr enum (deleteRange enum
      (st.setGeneratedKeyNumber (gen.map (· + 1))) (.ofKey key)) key val with
      ⟨added, _ | error⟩
    all_goals rw [hadd] at hrs
    · dsimp only
      split
      · exact hrs.trans (recordsOnly_maybeUpdateKeyGeneratorNumber hrs.owns _)
      · exact hrs
    · exact hrs.trans (recordsOnly_setGeneratedKeyNumber hrs.owns gen)

section

omit [IDBKeyData Key]

theorem recordsOnly_clear (h : st.OwnsIndexes) : RecordsOnly st (st.clear enum) := by
  have hcs : SameSchema st.transaction st.clearedStore.transaction ∧ ∀ oth, oth ≠ st.address →
      SameUndo oth st.Foreign st.transaction st.clearedStore.transaction := by
    rw [clearedStore, MemoryBackingStoreTransaction.objectStoreCleared]
    dsimp only
    split
    · exact ⟨SameSchema.refl _, fun oth _ => SameUndo.refl _ _ _⟩
    · refine ⟨⟨⟨rfl, rfl, rfl, rfl, rfl, rfl, rfl⟩, rfl⟩, fun oth ho => ?_⟩
      exact ⟨rfl, rfl, rfl, (lookup_insert_eq _ _ _ _).trans (if_neg ho),
        (lookup_insert_eq _ _ _ _).trans (if_neg ho), fun _ _ => rfl⟩
  have hcl := clearsIndexes_clear enum st
  have hsh : SameSchema st.clearedStore.transaction (st.clear enum).transaction := by
    rw [hcl.transaction]
    exact ⟨⟨rfl, rfl, rfl, rfl, rfl, rfl, rfl⟩, rfl⟩
  have hix : ∀ idx ∈ enum.values st.store.indexesByIdentifier,
      st.Knows idx := fun idx hm => .inr (enum.mem_values.mp hm)
  refine recordsOnly_of_sameIndexes (enum.values st.store.indexesByIdentifier) h hix
    hcl.address hcl.nextIndex ?_ ?_ ?_ hcl.sameIndexes (hcs.1.trans hsh).toSameScope
    (hcs.1.trans hsh).deletedIndexes fun oth ho => (hcs.2 oth ho).trans ?_
  any_goals rw [hcl.store, clearedStore]; dsimp only; split_ifs <;> rfl
  · refine ⟨?_, ?_, ?_, ?_, ?_, fun idx hi => ?_⟩
    any_goals rw [hcl.transaction]
    have hidx := hcl.index idx
    rw [if_neg fun hm => h.not_knows_of_foreign hi (hix idx hm.1)] at hidx
    exact hidx.2

theorem recordsOnly_replaceKeyValueStore (h : st.OwnsIndexes) :
    RecordsOnly st st.replaceKeyValueStore := by
  rw [replaceKeyValueStore]
  split
  · exact RecordsOnly.refl h
  · exact recordsOnly_of_store h rfl rfl rfl

end

theorem recordsOnly_restoreRecord (h : st.OwnsIndexes) (ent : Key × Option Value) :
    RecordsOnly st (st.restoreRecord scr enum ent) := by
  have hdl : RecordsOnly st (st.deleteRecord enum ent.1) :=
    recordsOnly_deleteRecord h ent.1
  exact hdl.trans (recordsOnly_addRecord hdl.owns ent.1 ent.2)

theorem recordsOnly_restoreRecords (h : st.OwnsIndexes) :
    RecordsOnly st (st.restoreRecords scr enum) := by
  have hg := recordsOnly_setKeyGeneratorValue h
    ((st.transaction.originalKeyGenerators.lookup st.address).getD 0)
  have hr := hg.trans (recordsOnly_replaceKeyValueStore hg.owns)
  rw [restoreRecords]
  split
  · exact hr
  · exact hr.trans (RecordsOnly.foldl (fun _ ent how => recordsOnly_restoreRecord how ent)
      _ hr.owns)

end

variable {scr : Script Key Value} {enum : Enumeration}

/-- What the deletion of an index does to the transaction. -/
theorem indexDeleted_spec (txn : MemoryBackingStoreTransaction Key Value) (idx : Address)
    (name : String) (objectStore : Address) (objectStoreName : String) :
    let after := txn.indexDeleted idx name objectStore objectStoreName
    SameScope txn after ∧ (∀ addr others, SameUndo addr others txn after) ∧
    (after.deletedIndexes = txn.deletedIndexes ∨
      after.deletedIndexes = txn.deletedIndexes.insert name idx ∧
        txn.deletedIndexes.lookup name = none) ∧
    ((∀ oth, txn.deletedObjectStores.lookup objectStoreName = some oth →
      oth = objectStore) → txn.deletedIndexes.lookup name = none →
        after.deletedIndexes = txn.deletedIndexes.insert name idx) := by
  have hsc (tbl) : SameScope txn
      { txn with indexes := txn.indexes.erase idx, deletedIndexes := tbl } :=
    ⟨rfl, rfl, rfl, rfl, rfl, rfl, rfl⟩
  have hu (tbl) (addr) (others : Address → Prop) : SameUndo addr others txn
        { txn with indexes := txn.indexes.erase idx, deletedIndexes := tbl } :=
    ⟨rfl, rfl, rfl, rfl, rfl, fun _ _ => rfl⟩
  rw [indexDeleted]
  have hrm (hno : txn.deletedIndexes.lookup name = none) :
      (if (txn.deletedIndexes.lookup name).isSome = true then txn.deletedIndexes
        else txn.deletedIndexes.insert name idx) =
      txn.deletedIndexes.insert name idx :=
    if_neg (by rw [hno]; simp)
  have hcs : (if (txn.deletedIndexes.lookup name).isSome = true then
        txn.deletedIndexes else txn.deletedIndexes.insert name idx) =
        txn.deletedIndexes ∨
      (if (txn.deletedIndexes.lookup name).isSome = true then
        txn.deletedIndexes else txn.deletedIndexes.insert name idx) =
        txn.deletedIndexes.insert name idx ∧
        txn.deletedIndexes.lookup name = none := by
    cases hnm : txn.deletedIndexes.lookup name with
    | none => exact .inr ⟨if_neg (by simp), rfl⟩
    | some oth => exact .inl (if_pos rfl)
  cases hso : txn.deletedObjectStores.lookup objectStoreName with
  | none => exact ⟨hsc _, hu _, hcs, fun _ => hrm⟩
  | some deletedObjectStore =>
    dsimp only
    split
    case isTrue hne =>
      exact ⟨hsc _, hu _, .inl rfl, fun hsm => absurd (hsm _ rfl) hne⟩
    case isFalse => exact ⟨hsc _, hu _, hcs, fun _ => hrm⟩

theorem confined_deleteIndex (h : st.OwnsIndexes) (idxId : Nat) :
    Confined st (st.deleteIndex idxId).1 := by
  have how (store : MemoryObjectStore Key Value)
      (txn : MemoryBackingStoreTransaction Key Value) (name : String)
      (hby : store.indexesByName = st.store.indexesByName.erase name)
      (hbd : store.indexesByIdentifier = st.store.indexesByIdentifier.erase idxId) :
      OwnsIndexes { st with store := store, transaction := txn } := by
    rintro idx (⟨name', hnm⟩ | ⟨ident, hid⟩)
    · rw [hby, lookup_erase_eq] at hnm
      split at hnm
      · cases hnm
      · exact h idx (.inl ⟨name', hnm⟩)
    · rw [hbd, lookup_erase_eq] at hid
      split at hid
      · cases hid
      · exact h idx (.inr ⟨ident, hid⟩)
  rw [deleteIndex]
  split
  case isFalse => exact Confined.refl h
  case isTrue =>
    split
    · exact Confined.refl h
    case h_2 indexByIdentifier hid =>
      dsimp only
      split
      · exact ⟨rfl, le_rfl, rfl, rfl, how _ _ _ rfl rfl, fun _ _ => rfl, fun _ _ => rfl,
          fun _ _ => rfl, SameScope.refl _, fun _ _ => SameUndo.refl _ _ _,
          fun _ _ hlk => hlk, fun _ _ hlk => .inl hlk⟩
      case h_2 idx hi =>
        obtain ⟨hsc, hu, hdl, -⟩ := indexDeleted_spec st.transaction idx
          (st.heap idx).info.name st.address st.store.info.name
        refine ⟨rfl, le_rfl, rfl, rfl, how _ _ _ rfl rfl, fun _ _ => rfl, fun _ _ => rfl,
          fun _ _ => rfl, hsc, fun oth _ => hu oth _, fun name oth hlk => ?_,
          fun name oth hlk => ?_⟩
        · rcases hdl with hsm | ⟨hin, hno⟩
          · rwa [hsm]
          · rw [hin, lookup_insert_eq, if_neg, hlk]
            rintro rfl
            rw [hno] at hlk
            cases hlk
        · rcases hdl with hsm | ⟨hin, -⟩
          · exact .inl (by rwa [← hsm])
          · rw [hin, lookup_insert_eq] at hlk
            split at hlk
            case isTrue hnm =>
              obtain rfl := some.inj hlk
              obtain ⟨hlt, hso⟩ := h idx (.inl ⟨_, hi⟩)
              exact .inr ⟨hlt, hso, hnm.symm⟩
            case isFalse => exact .inl hlk

theorem confined_deleteAllIndexes (h : st.OwnsIndexes) : Confined st (st.deleteAllIndexes enum) :=
  Confined.foldl (fun _ ident how => confined_deleteIndex how ident) _ h

variable [IDBKeyData Key]

/-- Populating changes the entries of an index and nothing else. -/
theorem populate_info (recs : List (Key × Option Value)) (idx : MemoryIndex Key) :
    (populateIndexWithExistingRecords scr recs idx).1.info = idx.info ∧
    (populateIndexWithExistingRecords scr recs idx).1.objectStore = idx.objectStore := by
  induction recs generalizing idx with
  | nil => exact ⟨rfl, rfl⟩
  | cons rcd rest ih =>
    obtain ⟨key, val⟩ := rcd
    have hp := And.intro (MemoryIndex.info_putIndexKey idx key (scr.generateIndexKeyForValue
      idx.info val)) (objectStore_putIndexKey idx key (scr.generateIndexKeyForValue idx.info val))
    rw [populateIndexWithExistingRecords]
    split
    · exact ⟨rfl, rfl⟩
    · split
      · exact ih idx
      · split
        case h_1 updated _ heq =>
          rw [heq] at hp
          exact hp
        case h_2 updated heq =>
          rw [heq] at hp
          exact ⟨(ih updated).1.trans hp.1, (ih updated).2.trans hp.2⟩

/-- The heap after an index in it has been emptied and populated again. -/
theorem update_populate_info (heap : Address → MemoryIndex Key)
    (recs : List (Key × Option Value)) (idx oth : Address) :
    (update heap idx (populateIndexWithExistingRecords scr recs
      ((heap idx).replaceIndexValueStore none)).1 oth).info = (heap oth).info ∧
    (update heap idx (populateIndexWithExistingRecords scr recs
      ((heap idx).replaceIndexValueStore none)).1 oth).objectStore =
        (heap oth).objectStore := by
  by_cases ho : oth = idx
  · rw [ho, update_self]
    exact populate_info recs _
  · rw [update_of_ne ho]
    exact ⟨rfl, rfl⟩

omit [IDBKeyData Key] in
/-- One more index of its own in the tables of a store. -/
theorem OwnsIndexes.registerIndex (h : st.OwnsIndexes) {info : IDBIndexInfo} {idx}
    (ha : after.address = st.address) (hnx : st.nextIndex ≤ after.nextIndex)
    (hby : after.store.indexesByName = st.store.indexesByName.insert info.name idx)
    (hbd : after.store.indexesByIdentifier =
      st.store.indexesByIdentifier.insert info.identifier idx)
    (hso : ∀ oth < st.nextIndex, (after.heap oth).objectStore = (st.heap oth).objectStore)
    (hlt : idx < after.nextIndex) (hw : (after.heap idx).objectStore = st.address) :
    after.OwnsIndexes := by
  have hd {oth} (ho : st.Knows oth) :
      oth < after.nextIndex ∧ (after.heap oth).objectStore = after.address := by
    obtain ⟨hl, hon⟩ := h oth ho
    rw [hso oth hl, ha]
    exact ⟨hl.trans_le hnx, hon⟩
  rintro oth (⟨name, hnm⟩ | ⟨ident, hid⟩)
  · rw [hby, lookup_insert_eq] at hnm
    split at hnm
    · obtain rfl := some.inj hnm
      exact ⟨hlt, hw.trans ha.symm⟩
    · exact hd (.inl ⟨name, hnm⟩)
  · rw [hbd, lookup_insert_eq] at hid
    split at hid
    · obtain rfl := some.inj hid
      exact ⟨hlt, hw.trans ha.symm⟩
    · exact hd (.inr ⟨ident, hid⟩)

theorem confined_createIndex (h : st.OwnsIndexes) (info : IDBIndexInfo) :
    Confined st (st.createIndex scr enum info).1 := by
  have hne {idx} (hlt : idx < st.nextIndex) : idx ≠ st.nextIndex :=
    Nat.ne_of_lt hlt
  have hpp := @populate_info Key Value scr _ (st.records enum)
    (.create info st.address)
  rw [createIndex]
  split
  case isFalse => exact Confined.refl h
  case isTrue =>
    split
    · exact Confined.refl h
    case h_2 idx heq =>
      rw [heq] at hpp
      have hhp {oth} (hlt : oth < st.nextIndex) :
          update st.heap st.nextIndex idx oth = st.heap oth :=
        update_of_ne (hne hlt) _ _
      refine ⟨rfl, Nat.le_succ _, rfl, rfl, ?_, fun oth hlt => ?_, fun oth hlt => ?_,
        fun oth ho => hhp ho.1, ⟨rfl, rfl, rfl, rfl, rfl, rfl, rfl⟩,
        fun _ _ => ⟨rfl, rfl, rfl, rfl, rfl, fun _ _ => rfl⟩, fun _ _ hlk => hlk,
        fun _ _ hlk => .inl hlk⟩
      · refine h.registerIndex rfl (Nat.le_succ _) rfl rfl (fun oth hlt => ?_)
          (Nat.lt_succ_self _) ?_
        · dsimp only
          rw [hhp hlt]
        · dsimp only
          rw [update_self, hpp.2]
          rfl
      · dsimp only
        rw [hhp hlt]
      · dsimp only
        rw [hhp hlt]

theorem confined_maybeRestoreDeletedIndex (h : st.OwnsIndexes) {idx}
    (hlt : idx < st.nextIndex) (hon : (st.heap idx).objectStore = st.address) :
    Confined st (st.maybeRestoreDeletedIndex scr enum idx) := by
  rw [maybeRestoreDeletedIndex]
  split
  · exact Confined.refl h
  · have hsm := @update_populate_info Key Value scr _ st.heap (st.records enum) idx
    refine ⟨rfl, le_rfl, rfl, rfl, ?_, fun oth _ => (hsm oth).1,
      fun oth _ => (hsm oth).2, fun oth ho => ?_, SameScope.refl _,
      fun _ _ => SameUndo.refl _ _ _, fun _ _ hlk => hlk,
      fun _ _ hlk => .inl hlk⟩
    · exact h.registerIndex rfl le_rfl rfl rfl (fun oth _ => (hsm oth).2) hlt
        ((hsm idx).2.trans hon)
    · apply update_of_ne
      rintro rfl
      exact ho.2 hon

end ObjectStoreState

end QtWebKit.IndexedDB
