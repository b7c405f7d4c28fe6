import QtWebKit.IndexedDB.StoreMirror

/-! # Undo information of one object store

While a transaction runs, `Undoable before now` says that the state `now` of a
store can be taken back to its state `before` the transaction: every recorded
value is the one from before, everything that is not recorded is unchanged, and
the indexes mirror the records that the abort starts from. -/

namespace QtWebKit.IndexedDB

open Lib List Option

variable {Key Value : Type} [IDBKeyData Key] {scr : Script Key Value}

namespace MemoryBackingStoreTransaction

variable {txn : MemoryBackingStoreTransaction Key Value}

/-- Two transactions with the same undo information for a store and some indexes. -/
structure SameUndo (address : Address) (indexes : Address → Prop)
    (before after : MemoryBackingStoreTransaction Key Value) : Prop where
  isAborting : after.isAborting = before.isAborting
  originalKeyGenerators : after.originalKeyGenerators.lookup address =
    before.originalKeyGenerators.lookup address
  originalValues : after.originalValues.lookup address = before.originalValues.lookup address
  clearedKeyValueMaps : after.clearedKeyValueMaps.lookup address =
    before.clearedKeyValueMaps.lookup address
  clearedOrderedKeys : after.clearedOrderedKeys.lookup address =
    before.clearedOrderedKeys.lookup address
  clearedIndexValueStores : ∀ index, indexes index →
    after.clearedIndexValueStores.lookup index = before.clearedIndexValueStores.lookup index

omit [IDBKeyData Key] in
theorem SameUndo.refl (addr : Address) (idxs : Address → Prop)
    (txn : MemoryBackingStoreTransaction Key Value) : SameUndo addr idxs txn txn :=
  ⟨rfl, rfl, rfl, rfl, rfl, fun _ _ => rfl⟩

omit [IDBKeyData Key] in
theorem SameUndo.trans {addr} {idxs : Address → Prop}
    {first snd third : MemoryBackingStoreTransaction Key Value}
    (h : SameUndo addr idxs first snd) (h' : SameUndo addr idxs snd third) :
    SameUndo addr idxs first third :=
  ⟨h'.isAborting.trans h.isAborting, h'.originalKeyGenerators.trans h.originalKeyGenerators,
    h'.originalValues.trans h.originalValues, h'.clearedKeyValueMaps.trans h.clearedKeyValueMaps,
    h'.clearedOrderedKeys.trans h.clearedOrderedKeys, fun idx hi =>
      (h'.clearedIndexValueStores idx hi).trans (h.clearedIndexValueStores idx hi)⟩

/-- The fields that the methods of a store do not touch. -/
structure SameScope (before after : MemoryBackingStoreTransaction Key Value) : Prop where
  isVersionChange : after.isVersionChange = before.isVersionChange
  originalDatabaseInfo : after.originalDatabaseInfo = before.originalDatabaseInfo
  isAborting : after.isAborting = before.isAborting
  objectStores : after.objectStores = before.objectStores
  versionChangeAddedObjectStores :
    after.versionChangeAddedObjectStores = before.versionChangeAddedObjectStores
  deletedObjectStores : after.deletedObjectStores = before.deletedObjectStores
  originalKeyGenerators : after.originalKeyGenerators = before.originalKeyGenerators

/-- The fields that requests for records do not touch. -/
structure SameSchema (before after : MemoryBackingStoreTransaction Key Value) : Prop
    extends SameScope before after where
  deletedIndexes : after.deletedIndexes = before.deletedIndexes

section

omit [IDBKeyData Key]

variable {first snd third : MemoryBackingStoreTransaction Key Value}

theorem SameScope.refl (txn : MemoryBackingStoreTransaction Key Value) : SameScope txn txn :=
  ⟨rfl, rfl, rfl, rfl, rfl, rfl, rfl⟩

theorem SameScope.trans (h : SameScope first snd) (h' : SameScope snd third) :
    SameScope first third :=
  ⟨h'.isVersionChange.trans h.isVersionChange, h'.originalDatabaseInfo.trans h.originalDatabaseInfo,
    h'.isAborting.trans h.isAborting, h'.objectStores.trans h.objectStores,
    h'.versionChangeAddedObjectStores.trans h.versionChangeAddedObjectStores,
    h'.deletedObjectStores.trans h.deletedObjectStores, h'.originalKeyGenerators.trans
    h.originalKeyGenerators⟩

theorem SameSchema.refl (txn : MemoryBackingStoreTransaction Key Value) : SameSchema txn txn :=
  ⟨.refl txn, rfl⟩

theorem SameSchema.trans (h : SameSchema first snd) (h' : SameSchema snd third) :
    SameSchema first third :=
  ⟨h.toSameScope.trans h'.toSameScope, h'.deletedIndexes.trans h.deletedIndexes⟩

end

variable {addr : Address} {key : Key} {val : Option (Option Value)}

theorem recordValueChanged_of_isAborting (h : txn.isAborting = true) :
    txn.recordValueChanged addr key val = txn :=
  if_pos h

theorem recordValueChanged_of_cleared {saved}
    (h : txn.clearedKeyValueMaps.lookup addr = some saved) :
    txn.recordValueChanged addr key val = txn := by
  rw [recordValueChanged]
  split
  · rfl
  · rw [if_pos (by rw [h]; rfl)]

theorem sameSchema_recordValueChanged : SameSchema txn (txn.recordValueChanged addr key val) := by
  rw [recordValueChanged]
  split
  · exact SameSchema.refl _
  · split
    · exact SameSchema.refl _
    · exact ⟨⟨rfl, rfl, rfl, rfl, rfl, rfl, rfl⟩, rfl⟩

/-- A change of one store is no change of the undo information of another. -/
theorem sameUndo_recordValueChanged {oth} (ho : oth ≠ addr) (idxs : Address → Prop) :
    SameUndo oth idxs txn (txn.recordValueChanged addr key val) := by
  rw [recordValueChanged]
  split
  · exact SameUndo.refl _ _ _
  · split
    · exact SameUndo.refl _ _ _
    · refine ⟨rfl, rfl, ?_, rfl, rfl, fun _ _ => rfl⟩
      exact (Table.lookup_insert_eq _ _ _ _).trans (if_neg ho)

/-- What is recorded of a store after one more change. -/
theorem lookup_originalValues_recordValueChanged (hab : txn.isAborting = false)
    (hcr : txn.clearedKeyValueMaps.lookup addr = none) (oth : Key) :
    ((txn.recordValueChanged addr key val).originalValues.lookup addr).bind
        (fun map => map.lookup oth) =
      match (txn.originalValues.lookup addr).bind fun map => map.lookup oth with
      | some recorded => some recorded
      | none => if oth = key then some val.join else none := by
  rw [recordValueChanged, if_neg (by simp [hab]), if_neg (by simp [hcr])]
  rw [AList.lookup_insert, bind_some]
  have hm : ((txn.originalValues.lookup addr).getD ∅).lookup oth =
      (txn.originalValues.lookup addr).bind fun map => map.lookup oth := by
    cases txn.originalValues.lookup addr <;> simp
  rw [← hm]
  by_cases hk : oth = key
  · subst hk
    cases hlk : ((txn.originalValues.lookup addr).getD ∅).lookup oth with
    | none => simp
    | some recorded => simp [hlk]
  · split_ifs with hs
    · cases ((txn.originalValues.lookup addr).getD ∅).lookup oth <;> rfl
    · rw [AList.lookup_insert_ne hk]
      cases ((txn.originalValues.lookup addr).getD ∅).lookup oth <;> rfl

theorem recordValueChanged_clearedKeyValueMaps
    (txn : MemoryBackingStoreTransaction Key Value) (addr : Address) (key : Key)
    (val : Option (Option Value)) :
    (txn.recordValueChanged addr key val).clearedKeyValueMaps =
      txn.clearedKeyValueMaps ∧ (txn.recordValueChanged addr key val).clearedOrderedKeys =
      txn.clearedOrderedKeys ∧ (txn.recordValueChanged addr key val).clearedIndexValueStores =
      txn.clearedIndexValueStores := by
  rw [recordValueChanged]
  split
  · exact ⟨rfl, rfl, rfl⟩
  · split <;> exact ⟨rfl, rfl, rfl⟩

end MemoryBackingStoreTransaction

namespace ObjectStoreState

open MemoryBackingStoreTransaction

variable {st pre now : ObjectStoreState Key Value}

/-- The value recorded for a key, if its first change was recorded. -/
def original (state : ObjectStoreState Key Value) (key : Key) : Option (Option Value) :=
  (state.transaction.originalValues.lookup state.address).bind fun map => map.lookup key

/-- The records that the abort of the store starts from. -/
def undoBase (state : ObjectStoreState Key Value) : Key → Option (Option Value) :=
  match state.saved.join with
  | none => state.store.record
  | some map => fun key => map.lookup key

/-- The change of a record can be undone: the store was cleared, or the key was recorded before,
or there is a record to remember. -/
def Recoverable (state : ObjectStoreState Key Value) (key : Key) : Prop :=
  state.saved.isSome = true ∨ (state.original key).isSome = true ∨
    (state.store.record key).isSome = true

/-- The store is the one from the start, and its indexes are among those that it had then. -/
structure KeepsIndexes (before now : ObjectStoreState Key Value) : Prop where
  address : now.address = before.address
  wellFormed : now.WellFormed
  indexesByName : ∀ name index, now.store.indexesByName.lookup name = some index →
    before.store.indexesByName.lookup name = some index
  indexInfo : ∀ index, before.Registered index → (now.heap index).info = (before.heap index).info
  indexStore : ∀ index, before.Registered index → (now.heap index).objectStore = now.address

theorem KeepsIndexes.registered (h : KeepsIndexes pre now) {idx} (hi : now.Registered idx) :
    pre.Registered idx := by
  obtain ⟨name, hnm⟩ := hi
  exact ⟨name, h.indexesByName name idx hnm⟩

theorem KeepsIndexes.schema {after : ObjectStoreState Key Value} (h : KeepsIndexes pre now)
    (hsc : KeepsSchema now after) (hwf : after.WellFormed) : KeepsIndexes pre after where
  address := hsc.address.trans h.address
  wellFormed := hwf
  indexesByName := by rw [hsc.indexesByName]; exact h.indexesByName
  indexInfo idx hi := by rw [hsc.indexInfo, h.indexInfo idx hi]
  indexStore idx hi := by rw [hsc.indexStore, h.indexStore idx hi, hsc.address]

/-- The transaction has recorded what the records of the store were. -/
structure RecordsUndo (before now : ObjectStoreState Key Value) : Prop
    extends KeepsIndexes before now where
  keyGeneratorValue : now.transaction.originalKeyGenerators.lookup now.address =
    some before.store.keyGeneratorValue
  original : ∀ key value, now.original key = some value → before.store.record key = some value
  base : ∀ key, now.original key = none → now.undoBase key = before.store.record key
  cleared : ∀ saved, now.saved = some saved → ∃ map, saved = some map ∧
    now.transaction.clearedOrderedKeys.lookup now.address = some (some map.keys.toFinset)

/-- The store of a running transaction, whose index entries are right or saved by a clear. -/
structure Undoable (script : Script Key Value) (before now : ObjectStoreState Key Value) : Prop
    extends RecordsUndo before now where
  isAborting : now.transaction.isAborting = false
  mirrors : now.saved = none → now.Mirrors script ∧ ∀ index, before.Registered index →
    now.transaction.clearedIndexValueStores.lookup index = none
  clearedMirrors : ∀ map, now.saved = some (some map) → ∀ index, now.Registered index →
    ∃ records, now.transaction.clearedIndexValueStores.lookup index = some records ∧
      MemoryIndex.Mirrors script (fun key => map.lookup key)
        ((now.heap index).replaceIndexValueStore records)

/-- A step that leaves the records, the indexes that stay and the undo information alone. -/
theorem Undoable.keepsRecord {after : ObjectStoreState Key Value} (h : Undoable scr pre now)
    (ha : after.address = now.address) (hwf : after.WellFormed)
    (hnm : ∀ name idx, after.store.indexesByName.lookup name = some idx →
      now.store.indexesByName.lookup name = some idx)
    (hrc : after.store.record = now.store.record)
    (hhp : ∀ idx, pre.Registered idx → after.heap idx = now.heap idx)
    (htr : SameUndo now.address pre.Registered now.transaction after.transaction) :
    Undoable scr pre after := by
  have hg {idx} (hi : after.Registered idx) : now.Registered idx := by
    obtain ⟨name, hn⟩ := hi
    exact ⟨name, hnm name idx hn⟩
  have hsv : after.saved = now.saved := by
    rw [saved, saved, ha, htr.clearedKeyValueMaps]
  have hor : after.original = now.original := by
    funext key
    rw [ObjectStoreState.original, ObjectStoreState.original, ha, htr.originalValues]
  have hbs : after.undoBase = now.undoBase := by
    rw [undoBase, undoBase, hsv, hrc]
  refine
    { address := ha.trans h.address
      isAborting := htr.isAborting.trans h.isAborting
      wellFormed := hwf
      indexesByName := fun name idx hn => h.indexesByName name idx (hnm name idx hn)
      indexInfo := fun idx hi => by rw [hhp idx hi, h.indexInfo idx hi]
      indexStore := fun idx hi => by
        rw [hhp idx hi, h.indexStore idx hi, ha]
      keyGeneratorValue := by
        rw [ha, htr.originalKeyGenerators, h.keyGeneratorValue]
      original := by rw [hor]; exact h.original
      base := by rw [hor, hbs]; exact h.base
      cleared := by
        rw [hsv, ha, htr.clearedOrderedKeys]
        exact h.cleared
      mirrors := fun hno => ⟨fun idx hi => ?_, fun idx hi => ?_⟩
      clearedMirrors := fun map hm idx hi => ?_ }
  · rw [hsv] at hno
    rw [hhp idx (h.registered (hg hi)), hrc]
    exact (h.mirrors hno).1 idx (hg hi)
  · rw [hsv] at hno
    rw [htr.clearedIndexValueStores idx hi]
    exact (h.mirrors hno).2 idx hi
  · rw [hsv] at hm
    have hb := h.registered (hg hi)
    rw [hhp idx hb, htr.clearedIndexValueStores idx hb]
    exact h.clearedMirrors map hm idx (hg hi)

/-- A step that leaves the store, its indexes and its undo information alone. -/
theorem Undoable.frame {after : ObjectStoreState Key Value} (h : Undoable scr pre now)
    (ha : after.address = now.address) (hso : after.store = now.store)
    (hhp : ∀ idx, pre.Registered idx → after.heap idx = now.heap idx)
    (hnx : now.nextIndex ≤ after.nextIndex)
    (htr : SameUndo now.address pre.Registered now.transaction after.transaction) :
    Undoable scr pre after := by
  refine h.keepsRecord ha (h.wellFormed.frame hso hnx fun idx hi => ?_) ?_ (by rw [hso]) hhp htr
  · rw [hhp idx (h.registered hi)]
  · rw [hso]
    exact fun _ _ hn => hn

section

variable {after : ObjectStoreState Key Value} {rcd : Key → Option (Option Value)}
  {enum : Enumeration}

/-- A request that writes records, with undo information for what it writes. -/
theorem Undoable.writes (h : Undoable scr pre now) (hw : Writes now after rcd)
    (hsc : SameSchema now.transaction after.transaction)
    (hmp : after.transaction.clearedKeyValueMaps = now.transaction.clearedKeyValueMaps)
    (hks : after.transaction.clearedOrderedKeys = now.transaction.clearedOrderedKeys)
    (hss : after.transaction.clearedIndexValueStores = now.transaction.clearedIndexValueStores)
    (hor : ∀ key val, after.original key = some val → pre.store.record key = some val)
    (hrc : ∀ key, after.original key = none → now.original key = none)
    (hbs : now.saved = none → ∀ key, after.original key = none → rcd key = pre.store.record key)
    (hmr : now.saved = none → after.Mirrors scr) : Undoable scr pre after := by
  have hsv : after.saved = now.saved := by
    rw [saved, saved, hw.schema.address, hmp]
  refine
    { h.schema hw.schema hw.wellFormed with
      isAborting := hsc.isAborting.trans h.isAborting
      keyGeneratorValue := by
        rw [hw.schema.address, hsc.originalKeyGenerators, h.keyGeneratorValue]
      original := hor
      base := fun key hk => ?_
      cleared := by
        rw [hsv, hw.schema.address, hks]
        exact h.cleared
      mirrors := fun hno => ?_
      clearedMirrors := fun map hm idx hi => ?_ }
  · cases hn : now.saved with
    | none =>
      rw [undoBase, hsv, hn, ← hbs hn key hk]
      exact hw.record key
    | some saved =>
      obtain ⟨map, rfl, -⟩ := h.cleared saved hn
      have hd := h.base key (hrc key hk)
      rw [undoBase, hn] at hd
      rw [undoBase, hsv, hn]
      exact hd
  · rw [hsv] at hno
    refine ⟨hmr hno, ?_⟩
    rw [hss]
    exact (h.mirrors hno).2
  · rw [hsv] at hm
    obtain ⟨recs, hrs, hmirror⟩ := h.clearedMirrors map hm idx
      (hw.schema.registered_iff.mp hi)
    refine ⟨recs, by rw [hss, hrs], ?_⟩
    rwa [MemoryIndex.replaceIndexValueStore_congr (hw.schema.indexInfo idx)
      (hw.schema.indexStore idx)]

/-- A key is recorded before its record is changed. -/
theorem Undoable.recorded_deleteRecord (h : Undoable scr pre now) (enum : Enumeration) (key : Key) :
    (now.deleteRecord enum key).saved.isSome = true ∨
      ((now.deleteRecord enum key).original key).isSome = true := by
  have hw : Writes now (now.deleteRecord enum key) _ :=
    writes_deleteRecord h.wellFormed key
  rw [saved, ObjectStoreState.original, hw.schema.address, transaction_deleteRecord,
    (recordValueChanged_clearedKeyValueMaps _ _ _ _).1]
  cases hsv : now.transaction.clearedKeyValueMaps.lookup now.address with
  | some saved => exact .inl rfl
  | none =>
    right
    rw [lookup_originalValues_recordValueChanged h.isAborting hsv]
    split
    · rfl
    · rw [if_pos rfl]
      rfl

/-- The recorded values stay, and the deleted one is recorded if it was not. -/
theorem Undoable.original_deleteRecord (h : Undoable scr pre now) (enum : Enumeration)
    (key oth : Key) :
    (now.deleteRecord enum key).original oth = now.original oth ∨
      now.original oth = none ∧ now.saved = none ∧ oth = key ∧
        (now.deleteRecord enum key).original oth = some (now.store.record key).join := by
  have hw : Writes now (now.deleteRecord enum key) _ :=
    writes_deleteRecord h.wellFormed key
  rw [ObjectStoreState.original, transaction_deleteRecord, hw.schema.address]
  cases hsv : now.transaction.clearedKeyValueMaps.lookup now.address with
  | some saved =>
    rw [recordValueChanged_of_cleared hsv]
    exact .inl rfl
  | none =>
    rw [lookup_originalValues_recordValueChanged h.isAborting hsv]
    cases hrc : (now.transaction.originalValues.lookup now.address).bind
        fun map => map.lookup oth with
    | some recorded =>
      rw [ObjectStoreState.original, hrc]
      exact .inl rfl
    | none =>
      by_cases ho : oth = key
      · rw [ObjectStoreState.original, hrc, saved, hsv]
        exact .inr ⟨rfl, rfl, ho, if_pos ho⟩
      · rw [ObjectStoreState.original, hrc]
        exact .inl (if_neg ho)

theorem Undoable.deleteRecord (h : Undoable scr pre now) {key} (hrv : now.Recoverable key) :
    Undoable scr pre (now.deleteRecord enum key) := by
  have hw : Writes now (now.deleteRecord enum key) _ :=
    writes_deleteRecord h.wellFormed key
  have htr : (now.deleteRecord enum key).transaction =
      now.transaction.recordValueChanged now.address key (now.store.record key) :=
    transaction_deleteRecord enum key
  have hcr := recordValueChanged_clearedKeyValueMaps now.transaction now.address key
    (now.store.record key)
  have hnone {oth} (hno : (now.deleteRecord enum key).original oth = none) :
      now.original oth = none := by
    rcases h.original_deleteRecord enum key oth with hsm | ⟨hn, -⟩
    · rw [← hsm, hno]
    · exact hn
  refine h.writes hw ?_ ?_ ?_ ?_ (fun oth val hv => ?_) (fun _ hno => hnone hno)
    (fun hsv oth hno => ?_) fun hsv => ?_
  · rw [htr]
    exact sameSchema_recordValueChanged
  · rw [htr]
    exact hcr.1
  · rw [htr]
    exact hcr.2.1
  · rw [htr]
    exact hcr.2.2
  · rcases h.original_deleteRecord enum key oth with hsm | ⟨hno, hsv, rfl, hnw⟩
    · exact h.original oth val (hsm ▸ hv)
    · have hbs := h.base oth hno
      rw [undoBase, hsv] at hbs
      rw [← hbs]
      rcases hrv with hcl | hr | hr
      · rw [hsv] at hcl
        cases hcl
      · rw [hno] at hr
        cases hr
      · obtain ⟨found, hfn⟩ := isSome_iff_exists.mp hr
        rw [hnw, hfn] at hv
        change now.store.record oth = some val
        rw [hfn, ← some.inj hv]
        rfl
  · have hne : oth ≠ key := by
      rintro rfl
      rcases h.recorded_deleteRecord enum oth with hcl | hr
      · rw [saved, hw.schema.address, htr, hcr.1] at hcl
        rw [saved] at hsv
        rw [hsv] at hcl
        cases hcl
      · rw [hno] at hr
        cases hr
    have hbs := h.base oth (hnone hno)
    rw [undoBase, hsv] at hbs
    rw [if_neg hne]
    exact hbs
  · exact mirrors_deleteRecord scr enum h.wellFormed (h.mirrors hsv).1 key

omit [IDBKeyData Key] in
theorem SameButGenerator.eq (h : SameButGenerator now after) :
    ∃ val, after = now.setKeyGeneratorValue val := by
  obtain ⟨ha, hnx, hhp, htr, val, hso⟩ := h
  refine ⟨val, ?_⟩
  cases after
  simp only at ha hnx hhp htr hso
  rw [ha, hnx, hhp, htr, hso]
  rfl

/-- The key generator is restored from its own table. -/
theorem Undoable.generator (h : Undoable scr pre now) (hsm : SameButGenerator now after) :
    Undoable scr pre after := by
  obtain ⟨val, rfl⟩ := hsm.eq
  exact ⟨⟨⟨h.address, ⟨h.wellFormed.byName, h.wellFormed.byIdentifier, h.wellFormed.orderedKeys⟩,
    h.indexesByName, h.indexInfo, h.indexStore⟩, h.keyGeneratorValue, h.original, h.base,
    h.cleared⟩, h.isAborting, h.mirrors, h.clearedMirrors⟩

theorem Undoable.addRecord (h : Undoable scr pre now) {key val} (hno : now.store.record key = none)
    (hrc : now.saved.isSome = true ∨ (now.original key).isSome = true)
    (hmr : now.saved = none → (now.addRecord scr enum key val).1.Mirrors scr) :
    Undoable scr pre (now.addRecord scr enum key val).1 := by
  obtain ⟨htr, hw⟩ :=
    writes_addRecord h.wellFormed hno
  have hor : (now.addRecord scr enum key val).1.original = now.original := by
    funext oth
    rw [ObjectStoreState.original, ObjectStoreState.original, htr, hw.schema.address]
  refine h.writes hw (htr ▸ SameSchema.refl _) (by rw [htr])
    (by rw [htr]) (by rw [htr]) ?_ ?_ (fun hsv oth ho => ?_) hmr
  · rw [hor]
    exact h.original
  · rw [hor]
    exact fun _ hno => hno
  · rw [hor] at ho
    have hne : oth ≠ key := by
      rintro rfl
      rcases hrc with hcl | hr
      · rw [hsv] at hcl
        cases hcl
      · rw [ho] at hr
        cases hr
    have hbs := h.base oth ho
    rw [undoBase, hsv] at hbs
    rw [if_neg (by simp [hne])]
    exact hbs

/-- A put of a record whose old value can be remembered, and which is not taken back while the
indexes are still those to be kept. -/
theorem Undoable.performPutOrAdd (h : Undoable scr pre now) {info request}
    (hsf : ∀ key val gen, checkPut scr info now request = .ok (key, val, gen) →
      now.Recoverable key ∧ (now.saved = none → ¬ now.TakesBack scr enum key val)) :
    Undoable scr pre (now.performPutOrAdd scr enum info request).1 := by
  cases hch : checkPut scr info now request with
  | error error =>
    rw [performPutOrAdd_of_checkPut_error hch]
    exact h
  | ok checked =>
    obtain ⟨key, val, gen⟩ := checked
    obtain ⟨counted, hc, hl, -⟩ := performPutOrAdd_of_checkPut enum hch
    obtain ⟨hrv, hkp⟩ := hsf key val gen hch
    obtain ⟨number, hnu⟩ := hc.eq
    have hcn := h.generator hc
    have hdl : Undoable scr pre (counted.deleteRecord enum key) :=
      hcn.deleteRecord (by rw [hnu]; exact hrv)
    have hw : Writes counted (counted.deleteRecord enum key) _ :=
      writes_deleteRecord hcn.wellFormed key
    have hsv : (counted.deleteRecord enum key).saved = now.saved := by
      rw [saved, hw.schema.address, transaction_deleteRecord,
        (recordValueChanged_clearedKeyValueMaps _ _ _ _).1, hnu]
      rfl
    refine Undoable.generator (hdl.addRecord ?_ ?_ fun hno => ?_) hl
    · rw [hw.record, if_pos rfl]
    · exact hcn.recorded_deleteRecord enum key
    · rw [hsv] at hno
      have hmr := hc.mirrors_iff.mpr (h.mirrors hno).1
      refine (replaceRecord_step hcn.wellFormed hmr enum key val).2.1 ?_
      rw [hc.takesBack_iff]
      exact hkp hno

theorem Undoable.deleteRange (h : Undoable scr pre now) {rng : IDBKeyRangeData Key}
    (hrv : ∀ key, rng.exactlyOneKey = some key → now.Recoverable key) :
    Undoable scr pre (now.deleteRange enum rng) := by
  rw [ObjectStoreState.deleteRange]
  split
  case h_1 key hon => exact h.deleteRecord (hrv key hon)
  case h_2 =>
    refine deleteKeysInRange_induction (fun _ hst => hst.wellFormed)
      (fun st key val hst hv => ?_) _ rng h
    exact hst.deleteRecord (.inr (.inr (by rw [hv]; rfl)))

end

variable {enum : Enumeration}

/-- The first clear. -/
theorem Undoable.clear_first (h : Undoable scr pre now) (hsv : now.saved = none)
    {map} (hm : now.store.keyValueStore = some map) : Undoable scr pre (now.clear enum) := by
  have hw := writes_clear enum h.wellFormed
  have hcl := clearsIndexes_clear enum now
  have hf : now.clearedStore.transaction = _ :=
    congrArg Prod.fst (if_neg (by rw [← saved, hsv]; simp))
  have htr := hcl.transaction
  rw [hf] at htr
  have hsd : (now.clear enum).saved = some (some map) := by
    rw [saved, htr, hw.schema.address]
    simp [hm]
  have hor : (now.clear enum).original = now.original := by
    funext key
    rw [ObjectStoreState.original, htr, hw.schema.address]
    rfl
  have hrr (key) : now.store.record key = map.lookup key := by
    rw [MemoryObjectStore.record, hm, bind_some]
  have hod := h.wellFormed.orderedKeys
  rw [hm] at hod
  refine
    { h.schema hw.schema hw.wellFormed with
      isAborting := by rw [htr]; exact h.isAborting
      keyGeneratorValue := by rw [htr, hw.schema.address]; exact h.keyGeneratorValue
      original := by rw [hor]; exact h.original
      base := fun key hk => ?_
      cleared := fun saved haf => ⟨map, ?_, ?_⟩
      mirrors := fun hno => ?_
      clearedMirrors := fun map' haf idx hi => ?_ }
  · rw [hor] at hk
    have hbs := h.base key hk
    rw [undoBase, hsv] at hbs
    rw [undoBase, hsd, ← hbs]
    exact (hrr key).symm
  · rw [hsd] at haf
    exact (some.inj haf).symm
  · rw [htr, hw.schema.address]
    simp [hod]
  · rw [hsd] at hno
    cases hno
  · rw [hsd] at haf
    obtain rfl := some.inj (some.inj haf)
    have hg := hw.schema.registered_iff.mp hi
    have hidx := hcl.index idx
    rw [clearedIndexValueStores_clearedStore,
      if_pos ⟨h.wellFormed.mem_valuesByIdentifier_iff.mpr hg,
        (h.mirrors hsv).2 idx (h.registered hg)⟩] at hidx
    refine ⟨(now.heap idx).records, hidx.2, ?_⟩
    rw [MemoryIndex.replaceIndexValueStore_congr (hw.schema.indexInfo idx)
      (hw.schema.indexStore idx), ← funext hrr]
    exact (h.mirrors hsv).1 idx hg

/-- The second clear changes nothing: the store and its indexes were all cleared before. -/
theorem Undoable.clear_eq_self (h : Undoable scr pre now) {saved} (hsv : now.saved = some saved) :
    now.clear enum = now := by
  obtain ⟨map, rfl, -⟩ := h.cleared saved hsv
  have hsm : (now.transaction.clearedKeyValueMaps.lookup now.address).isSome = true :=
    isSome_of_eq_some hsv
  rw [ObjectStoreState.clear, MemoryBackingStoreTransaction.objectStoreCleared, if_pos hsm]
  have hfo (idxs : List Address) (hix : ∀ idx ∈ idxs, now.Registered idx) :
      idxs.foldl ObjectStoreState.objectStoreCleared now = now := by
    induction idxs with
    | nil => rfl
    | cons first rest ih =>
      rw [forall_mem_cons] at hix
      obtain ⟨recs, hrs, -⟩ := h.clearedMirrors map hsv first hix.1
      rw [foldl_cons, objectStoreCleared_of_cleared (isSome_of_eq_some hrs), ih hix.2]
  exact hfo _ fun idx hi => h.wellFormed.mem_valuesByIdentifier_iff.mp hi

/-- The map of a store that has one is saved together with its indexes. -/
theorem Undoable.clear (h : Undoable scr pre now)
    (hm : now.saved.isSome = true ∨ now.store.keyValueStore.isSome = true) :
    Undoable scr pre (now.clear enum) := by
  cases hsv : now.saved with
  | some saved =>
    rw [h.clear_eq_self hsv]
    exact h
  | none =>
    obtain ⟨map, hm⟩ : ∃ map, now.store.keyValueStore = some map := by
      rcases hm with hs | hs
      · rw [hsv] at hs
        cases hs
      · exact isSome_iff_exists.mp hs
    exact h.clear_first hsv hm

end ObjectStoreState

end QtWebKit.IndexedDB
