import QtWebKit.IndexedDB.MemoryIDBBackingStore

/-! # What the store operations do to records and indexes

`WellFormed` is the part of the state that no operation breaks: the two tables of
indexes list the same indexes, and the ordered keys are those of the map.
`Mirrors` is the relation between records and indexes. -/

namespace QtWebKit.IndexedDB

open Lib List Option Function MemoryIndex MemoryObjectStore Table

variable {Key Value : Type} [IDBKeyData Key] (script : Script Key Value)

/-- The index holds what the given records yield, in structures that agree. -/
structure MemoryIndex.Mirrors (record : Key → Option (Option Value)) (index : MemoryIndex Key) :
    Prop where
  consistent : index.Consistent
  holds_iff : ∀ indexKey primary, index.Holds indexKey primary ↔
    ∃ value, record primary = some value ∧ indexKey ∈ script.indexKeys index.info value

namespace ObjectStoreState

variable {st : ObjectStoreState Key Value}

structure WellFormed (state : ObjectStoreState Key Value) : Prop where
  byName : ∀ name index, state.store.indexesByName.lookup name = some index →
    index < state.nextIndex ∧ (state.heap index).info.name = name ∧
      state.store.indexesByIdentifier.lookup (state.heap index).info.identifier = some index
  byIdentifier : ∀ identifier index,
    state.store.indexesByIdentifier.lookup identifier = some index →
      (state.heap index).info.identifier = identifier ∧
        state.store.indexesByName.lookup (state.heap index).info.name = some index
  orderedKeys : state.store.orderedKeys =
    state.store.keyValueStore.map fun map => map.keys.toFinset

/-- The indexes that the store knows. -/
def Registered (state : ObjectStoreState Key Value) (index : Address) : Prop :=
  ∃ name, state.store.indexesByName.lookup name = some index

/-- Every registered index mirrors the records of the store. -/
def Mirrors (state : ObjectStoreState Key Value) : Prop :=
  ∀ index, state.Registered index → (state.heap index).Mirrors script state.store.record

/-- What every request keeps, also where an index does not mirror the records any more. -/
structure Sound (state : ObjectStoreState Key Value) : Prop where
  wellFormed : state.WellFormed
  lists : ∀ index, state.Registered index → (state.heap index).Lists

variable {script} in
theorem Mirrors.sound (hmr : st.Mirrors script) (h : st.WellFormed) : st.Sound :=
  ⟨h, fun idx hi => (hmr idx hi).consistent.toLists⟩

theorem WellFormed.nodup_values (h : st.WellFormed) (enum : Enumeration) :
    (enum.values st.store.indexesByName).Nodup := by
  apply enum.nodup_values
  intro name name' idx hnm hnm'
  rw [← (h.byName name idx hnm).2.1, (h.byName name' idx hnm').2.1]

omit [IDBKeyData Key] in
theorem mem_values_iff {enum : Enumeration} {idx} :
    idx ∈ enum.values st.store.indexesByName ↔ st.Registered idx :=
  enum.mem_values

theorem WellFormed.mem_valuesByIdentifier_iff (h : st.WellFormed) {enum : Enumeration} {idx} :
    idx ∈ enum.values st.store.indexesByIdentifier ↔ st.Registered idx := by
  rw [enum.mem_values]
  constructor
  · rintro ⟨ident, hlk⟩
    exact ⟨_, (h.byIdentifier ident idx hlk).2⟩
  · rintro ⟨name, hlk⟩
    exact ⟨_, (h.byName name idx hlk).2.2⟩

omit [IDBKeyData Key] in
theorem updateIndexes_apply {heap}
    {f : MemoryIndex Key → MemoryIndex Key} {idxs : List Address} (hnd : idxs.Nodup)
    (idx : Address) :
    updateIndexes heap f idxs idx = if idx ∈ idxs then f (heap idx) else heap idx := by
  induction idxs generalizing heap with
  | nil => rfl
  | cons first rest ih =>
    rw [nodup_cons] at hnd
    rw [updateIndexes, foldl_cons, ← updateIndexes, ih hnd.2]
    by_cases hf : idx = first
    · subst hf
      rw [if_neg hnd.1, if_pos mem_cons_self, update_self]
    · simp [hf]

/-- An operation on records keeps the description of the store, its tables of indexes and the
descriptions of the indexes, and touches no index that is not registered. -/
structure KeepsSchema (before after : ObjectStoreState Key Value) : Prop where
  address : after.address = before.address
  nextIndex : after.nextIndex = before.nextIndex
  info : after.store.info = before.store.info
  writeTransaction : after.store.writeTransaction = before.store.writeTransaction
  indexesByName : after.store.indexesByName = before.store.indexesByName
  indexesByIdentifier : after.store.indexesByIdentifier = before.store.indexesByIdentifier
  indexInfo : ∀ index, (after.heap index).info = (before.heap index).info
  indexStore : ∀ index, (after.heap index).objectStore = (before.heap index).objectStore
  heap : ∀ index, ¬ before.Registered index → after.heap index = before.heap index

namespace KeepsSchema

variable {pre middle after : ObjectStoreState Key Value}

omit [IDBKeyData Key] in
theorem registered_iff (h : KeepsSchema pre after) {idx} :
    after.Registered idx ↔ pre.Registered idx := by
  rw [Registered, Registered, h.indexesByName]

omit [IDBKeyData Key] in
theorem trans (h : KeepsSchema pre middle) (h' : KeepsSchema middle after) :
    KeepsSchema pre after where
  address := h'.address.trans h.address
  nextIndex := h'.nextIndex.trans h.nextIndex
  info := h'.info.trans h.info
  writeTransaction := h'.writeTransaction.trans h.writeTransaction
  indexesByName := h'.indexesByName.trans h.indexesByName
  indexesByIdentifier := h'.indexesByIdentifier.trans h.indexesByIdentifier
  indexInfo idx := (h'.indexInfo idx).trans (h.indexInfo idx)
  indexStore idx := (h'.indexStore idx).trans (h.indexStore idx)
  heap idx hi :=
    (h'.heap idx (h.registered_iff.not.mpr hi)).trans (h.heap idx hi)

theorem wellFormed (h : KeepsSchema pre after) (hb : pre.WellFormed)
    (hks : after.store.orderedKeys =
      after.store.keyValueStore.map fun map => map.keys.toFinset) : after.WellFormed where
  byName name idx := by
    rw [h.indexesByName, h.indexesByIdentifier, h.indexInfo, h.nextIndex]
    exact hb.byName name idx
  byIdentifier ident idx := by
    rw [h.indexesByName, h.indexesByIdentifier, h.indexInfo]
    exact hb.byIdentifier ident idx
  orderedKeys := hks

end KeepsSchema

theorem WellFormed.frame {after : ObjectStoreState Key Value} (h : st.WellFormed)
    (hso : after.store = st.store) (hnx : st.nextIndex ≤ after.nextIndex)
    (hio : ∀ idx, st.Registered idx →
      (after.heap idx).info = (st.heap idx).info) : after.WellFormed where
  byName name idx hnm := by
    rw [hso] at hnm ⊢
    rw [hio idx ⟨name, hnm⟩]
    obtain ⟨hlt, hr⟩ := h.byName name idx hnm
    exact ⟨hlt.trans_le hnx, hr⟩
  byIdentifier ident idx hid := by
    rw [hso] at hid ⊢
    have hnm := (h.byIdentifier ident idx hid).2
    rw [hio idx ⟨_, hnm⟩]
    exact h.byIdentifier ident idx hid
  orderedKeys := by
    rw [hso]
    exact h.orderedKeys

section

variable (enum : Enumeration)

theorem toFinset_keys_erase (map : KeyValueMap Key Value) (key : Key) :
    (map.erase key).keys.toFinset = map.keys.toFinset.erase key := by
  ext oth
  rw [List.mem_toFinset, Finset.mem_erase, List.mem_toFinset, ← AList.mem_keys, AList.mem_erase,
    AList.mem_keys]

theorem toFinset_keys_insert (map : KeyValueMap Key Value) (key : Key) (val : Option Value) :
    (map.insert key val).keys.toFinset = insert key map.keys.toFinset := by
  ext oth
  rw [List.mem_toFinset, Finset.mem_insert, List.mem_toFinset, ← AList.mem_keys, AList.mem_insert,
    AList.mem_keys]

theorem deleteRecord_of_record_eq_none {key} (h : st.store.record key = none) :
    st.deleteRecord enum key =
      { st with
        transaction := st.transaction.recordValueChanged st.address key none } := by
  rw [record] at h
  rw [deleteRecord]
  cases hso : st.store.keyValueStore with
  | none => rfl
  | some map =>
    rw [hso, bind_some] at h
    simp only [h]

theorem deleteRecord_of_record_eq_some {key val} (h : st.store.record key = some val) :
    ∃ map, st.store.keyValueStore = some map ∧ st.deleteRecord enum key =
      { st with
        store := { st.store with
            keyValueStore := some (map.erase key)
            orderedKeys := st.store.orderedKeys.map fun keys => keys.erase key }
        heap := updateIndexes st.heap (fun idx => idx.removeEntriesWithValueKey key)
          (enum.values st.store.indexesByName)
        transaction := st.transaction.recordValueChanged st.address key (some val) } := by
  obtain ⟨map, hmp, hlk⟩ := bind_eq_some_iff.mp h
  refine ⟨map, hmp, ?_⟩
  rw [deleteRecord]
  simp only [hmp, hlk]

theorem transaction_deleteRecord (key : Key) :
    (st.deleteRecord enum key).transaction =
      st.transaction.recordValueChanged st.address key (st.store.record key) := by
  cases h : st.store.record key with
  | none => rw [deleteRecord_of_record_eq_none enum h]
  | some val =>
    obtain ⟨map, -, heq⟩ := deleteRecord_of_record_eq_some enum h
    rw [heq]

theorem record_deleteRecord (key key' : Key) :
    (st.deleteRecord enum key).store.record key' =
      if key' = key then none else st.store.record key' := by
  cases h : st.store.record key with
  | none =>
    rw [deleteRecord_of_record_eq_none enum h]
    by_cases hk : key' = key
    · rw [if_pos hk, hk, h]
    · rw [if_neg hk]
  | some val =>
    obtain ⟨map, hmp, heq⟩ := deleteRecord_of_record_eq_some enum h
    rw [heq, record, record, hmp]
    exact lookup_erase_eq map key key'

theorem heap_deleteRecord (h : st.WellFormed) {key} {val : Option Value}
    (hrc : st.store.record key = some val) (idx : Address) :
    (st.deleteRecord enum key).heap idx =
      if idx ∈ enum.values st.store.indexesByName then
        (st.heap idx).removeEntriesWithValueKey key
      else st.heap idx := by
  obtain ⟨map, -, heq⟩ := deleteRecord_of_record_eq_some enum hrc
  rw [heq]
  dsimp only
  rw [updateIndexes_apply (h.nodup_values enum)]

theorem keepsSchema_deleteRecord (h : st.WellFormed) (key : Key) :
    KeepsSchema st (st.deleteRecord enum key) := by
  cases hrc : st.store.record key with
  | none =>
    rw [deleteRecord_of_record_eq_none enum hrc]
    constructor <;> intros <;> rfl
  | some val =>
    have hhp := heap_deleteRecord enum h hrc
    obtain ⟨map, -, heq⟩ := deleteRecord_of_record_eq_some enum hrc
    refine ⟨?_, ?_, ?_, ?_, ?_, ?_, fun idx => ?_, fun idx => ?_, fun idx hi => ?_⟩
    all_goals first | rw [hhp] | rw [heq]
    · split <;> rfl
    · split <;> rfl
    · exact if_neg (mem_values_iff.not.mpr hi)

theorem wellFormed_deleteRecord (h : st.WellFormed) (key : Key) :
    (st.deleteRecord enum key).WellFormed := by
  apply (keepsSchema_deleteRecord enum h key).wellFormed h
  cases hrc : st.store.record key with
  | none =>
    rw [deleteRecord_of_record_eq_none enum hrc]
    exact h.orderedKeys
  | some val =>
    obtain ⟨map, hmp, heq⟩ := deleteRecord_of_record_eq_some enum hrc
    have hor := h.orderedKeys
    rw [hmp] at hor
    rw [heq]
    simp only [hor, map_some, toFinset_keys_erase]

/-- What a registered index is after the deletion of a record. -/
theorem mirrors_deleteRecord (h : st.WellFormed) (hmr : st.Mirrors script) (key : Key) :
    (st.deleteRecord enum key).Mirrors script := by
  intro idx hi
  rw [(keepsSchema_deleteRecord enum h key).registered_iff] at hi
  have hd := hmr idx hi
  cases hrc : st.store.record key with
  | none =>
    rw [deleteRecord_of_record_eq_none enum hrc]
    exact hd
  | some val =>
    rw [heap_deleteRecord enum h hrc, if_pos (mem_values_iff.mpr hi)]
    refine ⟨consistent_removeEntriesWithValueKey hd.consistent key, fun ikey prim => ?_⟩
    rw [holds_removeEntriesWithValueKey, hd.holds_iff, record_deleteRecord]
    by_cases hpr : prim = key
    · simp [hpr]
    · simp only [hpr, ne_eq, not_false_eq_true, and_true]
      rfl

theorem sound_deleteRecord (h : st.Sound) (key : Key) : (st.deleteRecord enum key).Sound := by
  refine ⟨wellFormed_deleteRecord enum h.wellFormed key, fun idx hi => ?_⟩
  rw [(keepsSchema_deleteRecord enum h.wellFormed key).registered_iff] at hi
  cases hrc : st.store.record key with
  | none =>
    rw [deleteRecord_of_record_eq_none enum hrc]
    exact h.lists idx hi
  | some val =>
    rw [heap_deleteRecord enum h.wellFormed hrc, if_pos (mem_values_iff.mpr hi)]
    exact (h.lists idx hi).removeEntriesWithValueKey key

end

/-- The index after a put that it accepts. -/
def putInto (key : Key) (value : Option Value) (index : MemoryIndex Key) : MemoryIndex Key :=
  match script.generateIndexKeyForValue index.info value with
  | [] => index
  | indexKey => (index.putIndexKey key indexKey).1

/-- A unique index that holds one of the keys of a value has no room for it. -/
def Rejects (value : Option Value) (index : MemoryIndex Key) : Prop :=
  index.info.unique = true ∧
    ∃ indexKey ∈ script.indexKeys index.info value, ∃ primary, index.Holds indexKey primary

variable {script} {key : Key} {val : Option Value} {idx : MemoryIndex Key}

theorem putInto_of_null (h : script.generateIndexKeyForValue idx.info val = []) :
    putInto script key val idx = idx := by
  rw [putInto, h]

theorem putInto_of_ne_null (h : script.generateIndexKeyForValue idx.info val ≠ []) :
    putInto script key val idx =
      (idx.putIndexKey key (script.generateIndexKeyForValue idx.info val)).1 := by
  rw [putInto]
  split
  · exact absurd ‹_› h
  · rfl

theorem not_rejects_of_null (h : script.generateIndexKeyForValue idx.info val = []) :
    ¬ Rejects script val idx := by
  rintro ⟨-, ikey, hm, -⟩
  rw [script.indexKeys_of_null h] at hm
  exact absurd hm not_mem_nil

theorem rejects_iff_refuses (h : script.generateIndexKeyForValue idx.info val ≠ []) :
    Rejects script val idx ↔
      idx.Refuses (script.generateIndexKeyForValue idx.info val) := by
  rw [Rejects, MemoryIndex.Refuses, script.indexKeys_of_ne_null h]

@[simp] theorem info_putInto : (putInto script key val idx).info = idx.info := by
  rw [putInto]
  split
  · rfl
  · exact info_putIndexKey _ _ _

@[simp] theorem objectStore_putIndexKey (idx : MemoryIndex Key) (vkey : Key) (ikey : List Key) :
    (idx.putIndexKey vkey ikey).1.objectStore = idx.objectStore := by
  simp only [putIndexKey]
  split_ifs <;> rfl

@[simp] theorem objectStore_putInto :
    (putInto script key val idx).objectStore = idx.objectStore := by
  rw [putInto]
  split
  · rfl
  · exact objectStore_putIndexKey _ _ _

/-- An accepted put adds the pairs of the new record. -/
theorem holds_putInto (h : idx.Lists) (ha : ¬ Rejects script val idx) (key ikey prim : Key) :
    (putInto script key val idx).Holds ikey prim ↔
      idx.Holds ikey prim ∨ (ikey ∈ script.indexKeys idx.info val ∧ prim = key) := by
  by_cases hn : script.generateIndexKeyForValue idx.info val = []
  · rw [putInto_of_null hn, script.indexKeys_of_null hn]
    simp
  · rw [putInto_of_ne_null hn, script.indexKeys_of_ne_null hn]
    exact (putIndexKey_accepted h ((rejects_iff_refuses hn).not.mp ha) key).2.2.2 ikey prim

theorem lists_putInto (h : idx.Lists) : (putInto script key val idx).Lists := by
  rw [putInto]
  split
  · exact h
  · exact h.putIndexKey key _

theorem consistent_putInto (h : idx.Consistent) : (putInto script key val idx).Consistent := by
  rw [putInto]
  split
  · exact h
  · exact consistent_putIndexKey h key _

/-- The keys of a put that is taken back lose their entries and stay listed. -/
theorem contents_putInto_reverted (h : idx.Lists) (ha : ¬ Rejects script val idx) (key : Key)
    (hn : script.generateIndexKeyForValue idx.info val ≠ []) :
    let after := (putInto script key val idx).removeRecord key
      (script.generateIndexKeyForValue idx.info val)
    after.orderedKeys = idx.orderedKeys ∪ (script.indexKeys idx.info val).toFinset ∧
      ∀ ikey prim, after.Holds ikey prim ↔
        idx.Holds ikey prim ∧ ikey ∉ script.indexKeys idx.info val := by
  rw [putInto_of_ne_null hn, script.indexKeys_of_ne_null hn]
  exact contents_reverted h ((rejects_iff_refuses hn).not.mp ha) key

variable {record : Key → Option (Option Value)} {rest prev : List Address}

/-- If the other records are mirrored, an accepted put makes all of them mirrored. -/
theorem mirrors_putInto (h : idx.Mirrors script record)
    (hnn : record key = none) (ha : ¬ Rejects script val idx) :
    (putInto script key val idx).Mirrors script
      fun oth => if oth = key then some val else record oth := by
  refine ⟨consistent_putInto h.consistent, fun ikey prim => ?_⟩
  rw [holds_putInto h.consistent.toLists ha, h.holds_iff, info_putInto]
  by_cases hpr : prim = key
  · subst hpr
    simp [hnn]
  · simp [hpr]

/-- A rejected put changes nothing that the index holds. -/
theorem contents_rejected (h : idx.Lists) (hrj : Rejects script val idx) (key : Key) :
    let after := (idx.putIndexKey key (script.generateIndexKeyForValue idx.info val)).1
    after.orderedKeys = idx.orderedKeys ∧
      ∀ ikey prim, after.Holds ikey prim ↔ idx.Holds ikey prim :=
  (contents_putIndexKey_refused h
    ((rejects_iff_refuses fun hn => not_rejects_of_null hn hrj).mp hrj) key).2

variable {heap : Address → MemoryIndex Key} {idxs : List Address}

/-- The index keys of a value that are not null, index by index. -/
def changedRecords (script : Script Key Value) (heap : Address → MemoryIndex Key)
    (value : Option Value) (indexes : List Address) : List (Address × List Key) :=
  (indexes.map fun index =>
    (index, script.generateIndexKeyForValue (heap index).info value)).filter fun record =>
      !record.2.isEmpty

section

omit [IDBKeyData Key]

theorem changedRecords_cons_of_null {first}
    (h : script.generateIndexKeyForValue (heap first).info val = []) :
    changedRecords script heap val (first :: rest) = changedRecords script heap val rest := by
  simp [changedRecords, h]

theorem changedRecords_cons_of_ne_null {first}
    (h : script.generateIndexKeyForValue (heap first).info val ≠ []) :
    changedRecords script heap val (first :: rest) =
      (first, script.generateIndexKeyForValue (heap first).info val) ::
        changedRecords script heap val rest := by
  simp [changedRecords, h]

theorem changedRecords_congr {heap'} (h : ∀ idx ∈ idxs, heap' idx = heap idx) :
    changedRecords script heap' val idxs = changedRecords script heap val idxs := by
  rw [changedRecords, changedRecords, map_congr_left]
  intro idx hi
  rw [h idx hi]

end

/-- A put goes through all indexes that do not reject it. -/
theorem putIndexKeys_append (hnd : idxs.Nodup) (hc : ∀ idx ∈ idxs, (heap idx).Lists)
    (ha : ∀ idx ∈ idxs, ¬ Rejects script val (heap idx))
    (key : Key) (more : List Address) (changed : List (Address × List Key)) :
    putIndexKeys script key val (idxs ++ more) heap changed =
      putIndexKeys script key val more
        (fun idx => if idx ∈ idxs then putInto script key val (heap idx) else heap idx)
        (changed ++ changedRecords script heap val idxs) := by
  induction idxs generalizing heap changed with
  | nil => simp [changedRecords]
  | cons first rest ih =>
    rw [nodup_cons] at hnd
    rw [forall_mem_cons] at hc ha
    -- the put into the first index leaves those of the rest as they were
    have hr (idx) (hi : idx ∈ rest) (updated) : update heap first updated idx = heap idx :=
      update_of_ne (ne_of_mem_of_not_mem hi hnd.1) _ _
    have hcn : ∀ idx ∈ rest, (update heap first
        (putInto script key val (heap first)) idx).Lists := by
      intro idx hi
      rw [hr idx hi]
      exact hc.2 idx hi
    have hac : ∀ idx ∈ rest, ¬ Rejects script val (update heap first
        (putInto script key val (heap first)) idx) := by
      intro idx hi
      rw [hr idx hi]
      exact ha.2 idx hi
    have hhp : (fun idx => if idx ∈ rest then putInto script key val
          (update heap first (putInto script key val (heap first)) idx)
        else update heap first (putInto script key val (heap first)) idx) =
        fun idx => if idx ∈ first :: rest then putInto script key val (heap idx)
          else heap idx := by
      funext idx
      by_cases hi : idx ∈ rest
      · rw [if_pos hi, hr idx hi, if_pos (mem_cons_of_mem _ hi)]
      · by_cases hf : idx = first
        · subst hf
          rw [if_neg hi, update_self, if_pos mem_cons_self]
        · rw [if_neg hi, update_of_ne hf, if_neg (by simp [hf, hi])]
    have hch : changedRecords script (update heap first
        (putInto script key val (heap first))) val rest =
        changedRecords script heap val rest :=
      changedRecords_congr fun idx hi => hr idx hi _
    rw [cons_append, putIndexKeys]
    split
    case h_1 hn =>
      have hsm : update heap first (putInto script key val (heap first)) = heap := by
        rw [putInto_of_null hn, update_eq_self]
      have hnx := ih hnd.2 hcn hac changed
      rw [hhp, hsm] at hnx
      rw [hnx, changedRecords_cons_of_null hn]
    case h_2 hn =>
      have hp := putIndexKey_accepted hc.1
        ((rejects_iff_refuses hn).not.mp ha.1) key
      have hnx := ih hnd.2 hcn hac
      rw [hhp, hch, putInto_of_ne_null hn] at hnx
      simp only [hp.1]
      rw [hnx, append_assoc, changedRecords_cons_of_ne_null hn]
      rfl

/-- Taking back what went through changes each of these indexes by itself. -/
theorem revertIndexKeys_apply (hnd : idxs.Nodup) {heap'} (idx : Address) :
    revertIndexKeys key (changedRecords script heap val idxs) heap' idx =
      if idx ∈ idxs ∧ script.generateIndexKeyForValue (heap idx).info val ≠ [] then
        (heap' idx).removeRecord key (script.generateIndexKeyForValue (heap idx).info val)
      else heap' idx := by
  induction idxs generalizing heap' with
  | nil => simp [changedRecords, revertIndexKeys]
  | cons first rest ih =>
    rw [nodup_cons] at hnd
    by_cases hn : script.generateIndexKeyForValue (heap first).info val = []
    · rw [changedRecords_cons_of_null hn, ih hnd.2]
      by_cases hf : idx = first
      · subst hf
        rw [if_neg (by simp [hn]), if_neg (by simp [hn])]
      · simp [hf]
    · rw [changedRecords_cons_of_ne_null hn, revertIndexKeys, foldl_cons,
        ← revertIndexKeys, ih hnd.2]
      by_cases hf : idx = first
      · subst hf
        rw [if_neg (by simp [hnd.1]), if_pos ⟨mem_cons_self, hn⟩, update_self]
      · simp [hf]

omit [IDBKeyData Key] in
theorem generateIndexKeyForValue_of_yieldsNothing {info}
    (h : script.yieldsNothing val = true) : script.generateIndexKeyForValue info val = [] := by
  cases val with
  | none => rfl
  | some val => exact if_pos h

variable {enum : Enumeration}

theorem updateIndexesForPutRecord_accepted (h : st.Sound)
    (ha : ∀ idx, st.Registered idx → ¬ Rejects script val (st.heap idx)) :
    updateIndexesForPutRecord script enum st key val =
      (fun idx => if idx ∈ enum.values st.store.indexesByName then
        putInto script key val (st.heap idx) else st.heap idx, none) := by
  rw [updateIndexesForPutRecord]
  by_cases hnt : script.yieldsNothing val = true
  · rw [if_pos hnt]
    congr 1
    funext idx
    rw [putInto_of_null (generateIndexKeyForValue_of_yieldsNothing hnt), ite_self]
  · have hp := putIndexKeys_append (h.wellFormed.nodup_values enum)
      (fun idx hi => h.lists idx (mem_values_iff.mp hi))
      (fun idx hi => ha idx (mem_values_iff.mp hi)) key [] []
    rw [append_nil] at hp
    rw [if_neg hnt, hp]
    rfl

/-- The first index that rejects a put ends it; those before it are put into and taken back. -/
theorem updateIndexesForPutRecord_rejected (h : st.Sound) {idx}
    (hv : enum.values st.store.indexesByName = prev ++ idx :: rest)
    (ha : ∀ oth ∈ prev, ¬ Rejects script val (st.heap oth))
    (hrj : Rejects script val (st.heap idx)) (key : Key) :
    (updateIndexesForPutRecord script enum st key val).2 = some .constraint ∧
      ∀ oth, (updateIndexesForPutRecord script enum st key val).1 oth =
        if oth ∈ prev then
          if script.generateIndexKeyForValue (st.heap oth).info val = [] then st.heap oth
          else (putInto script key val (st.heap oth)).removeRecord key
            (script.generateIndexKeyForValue (st.heap oth).info val)
        else if oth = idx then
          ((st.heap idx).putIndexKey key (script.generateIndexKeyForValue (st.heap idx).info val)).1
        else st.heap oth := by
  have hnd := h.wellFormed.nodup_values enum
  rw [hv, nodup_append] at hnd
  have hg {oth} (ho : oth ∈ prev ++ idx :: rest) : st.Registered oth := by
    rw [← hv] at ho
    exact mem_values_iff.mp ho
  have hi : idx ∉ prev := fun hm =>
    hnd.2.2 idx hm idx mem_cons_self rfl
  have hn : script.generateIndexKeyForValue (st.heap idx).info val ≠ [] :=
    fun hn => not_rejects_of_null hn hrj
  have hnt : ¬ script.yieldsNothing val = true :=
    fun hnt => hn (generateIndexKeyForValue_of_yieldsNothing hnt)
  have hp := putIndexKeys_append hnd.1
    (fun oth ho => h.lists oth (hg (mem_append_left _ ho)))
    ha key (idx :: rest) []
  have hrf := putIndexKey_refused
    (h.lists idx (hg (mem_append_right _ mem_cons_self)))
    ((rejects_iff_refuses hn).mp hrj) key
  have hl : putIndexKeys script key val (idx :: rest)
      (fun oth => if oth ∈ prev then putInto script key val (st.heap oth)
        else st.heap oth) ([] ++ changedRecords script st.heap val prev) =
      (update (fun oth => if oth ∈ prev then putInto script key val (st.heap oth)
          else st.heap oth) idx
        ((st.heap idx).putIndexKey key (script.generateIndexKeyForValue (st.heap idx).info val)).1,
        changedRecords script st.heap val prev, some .constraint) := by
    rw [putIndexKeys, if_neg hi, nil_append]
    split
    · exact absurd ‹_› hn
    · simp only [hrf.1]
  rw [updateIndexesForPutRecord, if_neg hnt, hv, hp, hl]
  refine ⟨rfl, fun oth => ?_⟩
  dsimp only
  rw [revertIndexKeys_apply hnd.1]
  by_cases ho : oth ∈ prev
  · have hne : oth ≠ idx := fun heq => hi (heq ▸ ho)
    rw [update_of_ne hne, if_pos ho, if_pos ho]
    by_cases hs : script.generateIndexKeyForValue (st.heap oth).info val = []
    · rw [if_neg (by simp [hs]), if_pos hs, putInto_of_null hs]
    · rw [if_pos ⟨ho, hs⟩, if_neg hs]
  · rw [if_neg (by simp [ho]), if_neg ho, update_apply]
    by_cases heq : oth = idx
    · rw [if_pos heq, if_pos heq]
    · rw [if_neg heq, if_neg heq, if_neg ho]

/-- Either no index of a list rejects a value, or there is a first one that does. -/
theorem rejects_cases (script : Script Key Value) (val : Option Value)
    (heap : Address → MemoryIndex Key) (idxs : List Address) :
    (∀ idx ∈ idxs, ¬ Rejects script val (heap idx)) ∨
      ∃ prev idx rest, idxs = prev ++ idx :: rest ∧
        (∀ oth ∈ prev, ¬ Rejects script val (heap oth)) ∧
        Rejects script val (heap idx) := by
  induction idxs with
  | nil => exact .inl (by simp)
  | cons first rest ih =>
    by_cases hf : Rejects script val (heap first)
    · exact .inr ⟨[], first, rest, rfl, by simp, hf⟩
    · rcases ih with hnn | ⟨prev, idx, later, rfl, her, hi⟩
      · exact .inl (forall_mem_cons.mpr ⟨hf, hnn⟩)
      · exact .inr ⟨first :: prev, idx, later, rfl, forall_mem_cons.mpr ⟨hf, her⟩, hi⟩

/-- Two heaps with the same indexes at the same addresses, which may hold different entries at
the given ones. -/
structure SameIndexes (indexes : List Address) (before after : Address → MemoryIndex Key) :
    Prop where
  info : ∀ index, (after index).info = (before index).info
  objectStore : ∀ index, (after index).objectStore = (before index).objectStore
  heap : ∀ index, index ∉ indexes → after index = before index

omit [IDBKeyData Key] in
theorem SameIndexes.refl (idxs : List Address) (heap : Address → MemoryIndex Key) :
    SameIndexes idxs heap heap :=
  ⟨fun _ => rfl, fun _ => rfl, fun _ _ => rfl⟩

omit [IDBKeyData Key] in
/-- Changing the entries of one more index. -/
theorem SameIndexes.update {pre after} (h : SameIndexes idxs pre after) {addr} (hm : addr ∈ idxs)
    {updated : MemoryIndex Key} (hio : updated.info = (after addr).info)
    (hso : updated.objectStore = (after addr).objectStore) :
    SameIndexes idxs pre (update after addr updated) := by
  refine ⟨fun idx => ?_, fun idx => ?_, fun idx hi => ?_⟩
  · by_cases heq : idx = addr
    · rw [heq, update_self, hio, h.info]
    · rw [update_of_ne heq, h.info]
  · by_cases heq : idx = addr
    · rw [heq, update_self, hso, h.objectStore]
    · rw [update_of_ne heq, h.objectStore]
  · rw [update_of_ne (ne_of_mem_of_not_mem hm hi).symm, h.heap idx hi]

theorem sameIndexes_putIndexKeys {pre all} (h : SameIndexes all pre heap) (hsb : idxs ⊆ all)
    {changed} (hch : ∀ record ∈ changed, record.1 ∈ all) :
    SameIndexes all pre (putIndexKeys script key val idxs heap changed).1 ∧
      ∀ record ∈ (putIndexKeys script key val idxs heap changed).2.1, record.1 ∈ all := by
  induction idxs generalizing heap changed with
  | nil => exact ⟨h, hch⟩
  | cons first rest ih =>
    rw [cons_subset] at hsb
    rw [putIndexKeys]
    split
    · exact ih h hsb.2 hch
    · dsimp only
      have hup := h.update hsb.1 (info_putIndexKey (heap first) key
        (script.generateIndexKeyForValue (heap first).info val))
        (objectStore_putIndexKey (heap first) key _)
      split
      · exact ⟨hup, hch⟩
      · refine ih hup hsb.2 fun record hrc => ?_
        rcases mem_append.mp hrc with hd | hnw
        · exact hch record hd
        · rw [mem_singleton.mp hnw]
          exact hsb.1

theorem sameIndexes_revertIndexKeys {pre all} (h : SameIndexes all pre heap) {changed}
    (hch : ∀ record ∈ changed, record.1 ∈ all) :
    SameIndexes all pre (revertIndexKeys key changed heap) := by
  induction changed generalizing heap with
  | nil => exact h
  | cons first rest ih =>
    rw [forall_mem_cons] at hch
    exact ih (h.update hch.1 rfl rfl) hch.2

theorem sameIndexes_updateIndexesForPutRecord :
    SameIndexes (enum.values st.store.indexesByName) st.heap
      (updateIndexesForPutRecord script enum st key val).1 := by
  rw [updateIndexesForPutRecord]
  split
  · exact SameIndexes.refl _ _
  · have hp : SameIndexes (enum.values st.store.indexesByName) st.heap
        (putIndexKeys script key val (enum.values st.store.indexesByName) st.heap []).1 ∧ _ :=
      sameIndexes_putIndexKeys (SameIndexes.refl _ _) (List.Subset.refl _) (by simp)
    dsimp only
    split
    · exact hp.1
    · exact sameIndexes_revertIndexKeys hp.1 hp.2

/-- An operation that leaves the given records in the store. -/
structure Writes (before after : ObjectStoreState Key Value)
    (record : Key → Option (Option Value)) : Prop where
  schema : KeepsSchema before after
  wellFormed : after.WellFormed
  record : ∀ key, after.store.record key = record key
  keyGeneratorValue : after.store.keyGeneratorValue = before.store.keyGeneratorValue

theorem writes_deleteRecord (h : st.WellFormed) (key : Key) :
    Writes st (st.deleteRecord enum key)
      fun oth => if oth = key then none else st.store.record oth where
  schema := keepsSchema_deleteRecord enum h key
  wellFormed := wellFormed_deleteRecord enum h key
  record := record_deleteRecord enum key
  keyGeneratorValue := by
    cases hrc : st.store.record key with
    | none => rw [deleteRecord_of_record_eq_none enum hrc]
    | some val =>
      obtain ⟨map, -, heq⟩ := deleteRecord_of_record_eq_some enum hrc
      rw [heq]

/-- The map and the ordered keys that a new record is added to. -/
private theorem exists_opened (h : st.WellFormed) :
    ∃ map : KeyValueMap Key Value, (∀ key, st.store.record key = map.lookup key) ∧
      st.store.opened = (map, map.keys.toFinset) := by
  have hor := h.orderedKeys
  cases hso : st.store.keyValueStore with
  | none =>
    refine ⟨∅, fun key => ?_, ?_⟩
    · rw [MemoryObjectStore.record, hso]
      rfl
    · rw [MemoryObjectStore.opened, hso]
      rfl
  | some map =>
    refine ⟨map, fun key => ?_, ?_⟩
    · rw [MemoryObjectStore.record, hso]
      rfl
    · simp [MemoryObjectStore.opened, hso, hor]

private theorem writes_setRecords (h : st.WellFormed) (map : KeyValueMap Key Value)
    (heap : Address → MemoryIndex Key) (hio : ∀ idx, (heap idx).info = (st.heap idx).info)
    (hso : ∀ idx, (heap idx).objectStore = (st.heap idx).objectStore)
    (hhp : ∀ idx, ¬ st.Registered idx → heap idx = st.heap idx) :
    Writes st
      { st with store := st.store.setRecords map map.keys.toFinset, heap := heap }
      fun key => map.lookup key := by
  have hsc : KeepsSchema st
      { st with store := st.store.setRecords map map.keys.toFinset, heap := heap } :=
    ⟨rfl, rfl, rfl, rfl, rfl, rfl, hio, hso, hhp⟩
  exact ⟨hsc, hsc.wellFormed h rfl, fun _ => rfl, rfl⟩

theorem Writes.congr {pre after record'} (h : Writes pre after record)
    (heq : ∀ key, record key = record' key) : Writes pre after record' :=
  ⟨h.schema, h.wellFormed, fun key => (h.record key).trans (heq key), h.keyGeneratorValue⟩

/-- Whether or not an index refuses it, a put of a record that the store does not have changes
this record and the entries of the registered indexes only. -/
theorem writes_addRecord (h : st.WellFormed) (hnn : st.store.record key = none) :
    (st.addRecord script enum key val).1.transaction = st.transaction ∧
    Writes st (st.addRecord script enum key val).1 fun oth =>
      if oth = key ∧ (st.addRecord script enum key val).2 = none then some val
      else st.store.record oth := by
  obtain ⟨map, hmp, hop⟩ := exists_opened h
  have hhp : SameIndexes (enum.values st.store.indexesByName) st.heap
      (updateIndexesForPutRecord script enum st key val).1 :=
    sameIndexes_updateIndexesForPutRecord
  have hw (map : KeyValueMap Key Value) := writes_setRecords h map _ hhp.info
    hhp.objectStore fun idx hi => hhp.heap idx (mem_values_iff.not.mpr hi)
  rw [addRecord]
  cases he : (updateIndexesForPutRecord script enum st key val).2 with
  | none =>
    simp only [hop, ← toFinset_keys_insert map key val]
    refine ⟨trivial, (hw (map.insert key val)).congr fun oth => ?_⟩
    rw [lookup_insert_eq, hmp]
    simp
  | some error =>
    simp only [hop, ← toFinset_keys_insert map key val, ← toFinset_keys_erase]
    refine ⟨trivial, (hw ((map.insert key val).erase key)).congr fun oth => ?_⟩
    rw [lookup_erase_eq]
    by_cases ho : oth = key
    · simp [ho, hnn]
    · simp [ho, hmp]

theorem addRecord_snd : (st.addRecord script enum key val).2 =
    (updateIndexesForPutRecord script enum st key val).2 := by
  rw [addRecord]
  cases (updateIndexesForPutRecord script enum st key val).2 <;> rfl

theorem heap_addRecord : (st.addRecord script enum key val).1.heap =
    (updateIndexesForPutRecord script enum st key val).1 := by
  rw [addRecord]
  cases (updateIndexesForPutRecord script enum st key val).2 <;> rfl

/-- Put into or taken back, the entries of an index stay listed. -/
theorem sound_addRecord (h : st.Sound) (hnn : st.store.record key = none) :
    (st.addRecord script enum key val).1.Sound := by
  obtain ⟨-, hw⟩ : _ ∧ Writes st (st.addRecord script enum key val).1 _ :=
    writes_addRecord h.wellFormed hnn
  refine ⟨hw.wellFormed, fun idx hi => ?_⟩
  have hls := h.lists idx (hw.schema.registered_iff.mp hi)
  rw [heap_addRecord]
  rcases rejects_cases script val st.heap (enum.values st.store.indexesByName) with
    ha | ⟨prev, bad, rest, hv, ha, hrj⟩
  · rw [updateIndexesForPutRecord_accepted h fun idx hi => ha idx (mem_values_iff.mpr hi)]
    dsimp only
    split_ifs
    · exact lists_putInto hls
    · exact hls
  · rw [(updateIndexesForPutRecord_rejected h hv ha hrj key).2]
    split_ifs with _ _ heq
    · exact hls
    · exact (lists_putInto hls).removeRecord key _
    · exact heq ▸ hls.putIndexKey key _
    · exact hls

theorem addRecord_accepted (h : st.WellFormed) (hmr : st.Mirrors script)
    (hnn : st.store.record key = none)
    (ha : ∀ idx, st.Registered idx → ¬ Rejects script val (st.heap idx)) (enum : Enumeration) :
    (st.addRecord script enum key val).2 = none ∧
      (st.addRecord script enum key val).1.transaction = st.transaction ∧
      Writes st (st.addRecord script enum key val).1
        (fun oth => if oth = key then some val else st.store.record oth) ∧
      (st.addRecord script enum key val).1.Mirrors script := by
  have hu : updateIndexesForPutRecord script enum st key val = _ :=
    updateIndexesForPutRecord_accepted (hmr.sound h) ha
  have he : (st.addRecord script enum key val).2 = none := by
    rw [addRecord_snd, hu]
  obtain ⟨htr, hw⟩ : _ ∧ Writes st
      (st.addRecord script enum key val).1 _ := writes_addRecord h hnn
  simp only [he, and_true] at hw
  refine ⟨he, htr, hw, fun idx hi => ?_⟩
  have hg := hw.schema.registered_iff.mp hi
  rw [funext hw.record, heap_addRecord, hu]
  dsimp only
  rw [if_pos (mem_values_iff.mpr hg)]
  exact mirrors_putInto (hmr idx hg) hnn (ha idx hg)

variable {idx : Address} (h : st.Sound) (hnn : st.store.record key = none)
  (hv : enum.values st.store.indexesByName = prev ++ idx :: rest)
  (ha : ∀ oth ∈ prev, ¬ Rejects script val (st.heap oth))
  (hrj : Rejects script val (st.heap idx))
include h hnn hv ha hrj

/-- The state after a put that an index has rejected. -/
theorem addRecord_rejected :
    (st.addRecord script enum key val).2 = some .constraint ∧
      Writes st (st.addRecord script enum key val).1 st.store.record := by
  obtain ⟨hu, -⟩ := updateIndexesForPutRecord_rejected h hv ha hrj key
  have he : (st.addRecord script enum key val).2 = some .constraint := by
    rw [addRecord_snd, hu]
  obtain ⟨-, hw⟩ : _ ∧ Writes st
      (st.addRecord script enum key val).1 _ := writes_addRecord h.wellFormed hnn
  simp only [he, reduceCtorEq, and_false] at hw
  exact ⟨he, hw⟩

omit hnn in
/-- An index before the rejecting one loses the entries of the keys that it was given, and
lists them. No other index has changed. -/
theorem contents_addRecord_rejected (key : Key) {oth} (ho : st.Registered oth) :
    let after := (st.addRecord script enum key val).1.heap oth
    let taken := if oth ∈ prev then script.indexKeys (st.heap oth).info val else []
    after.orderedKeys = (st.heap oth).orderedKeys ∪ taken.toFinset ∧
      ∀ ikey prim, after.Holds ikey prim ↔ (st.heap oth).Holds ikey prim ∧ ikey ∉ taken := by
  intro after taken
  have hls := h.lists oth ho
  simp only [after, taken]
  rw [heap_addRecord, (updateIndexesForPutRecord_rejected h hv ha hrj key).2]
  split_ifs with her hn heq
  · simp [script.indexKeys_of_null hn]
  · exact contents_putInto_reverted hls (ha oth her) key hn
  · subst heq
    simpa using contents_rejected hls hrj key
  · simp

/-- If the indexes before the rejecting one got no key, nothing has changed. -/
theorem mirrors_addRecord_rejected (hmr : st.Mirrors script)
    (hem : ∀ oth ∈ prev, script.indexKeys (st.heap oth).info val = []) :
    (st.addRecord script enum key val).1.Mirrors script := by
  obtain ⟨-, hw⟩ := addRecord_rejected h hnn hv ha hrj
  intro oth ho
  have hg := hw.schema.registered_iff.mp ho
  have hd := hmr oth hg
  have hkn : (if oth ∈ prev then script.indexKeys (st.heap oth).info val else []) = [] := by
    split_ifs with her
    · exact hem oth her
    · rfl
  obtain ⟨hor, hh⟩ := contents_addRecord_rejected h hv ha hrj key hg
  simp only [hkn, toFinset_nil, Finset.union_empty, not_mem_nil, not_false_eq_true,
    and_true] at hor hh
  refine ⟨⟨(sound_addRecord h hnn).lists oth ho, fun ikey hk => ?_⟩, fun ikey prim => ?_⟩
  · simpa only [hh] using hd.consistent.ordered ikey (hor ▸ hk)
  · rw [hh, hd.holds_iff, funext hw.record, hw.schema.indexInfo]

/-- Otherwise an index is left with a key that has no entry. -/
theorem exists_stale_of_rejected {oth} (ho : oth ∈ prev)
    (hks : script.indexKeys (st.heap oth).info val ≠ []) :
    let after := (st.addRecord script enum key val).1
    after.Registered oth ∧ ∃ ikey, ikey ∈ (after.heap oth).orderedKeys ∧
      ∀ prim, ¬ (after.heap oth).Holds ikey prim := by
  obtain ⟨-, hw⟩ := addRecord_rejected h hnn hv ha hrj
  have hg : st.Registered oth := by
    rw [← mem_values_iff, hv]
    exact mem_append_left _ ho
  obtain ⟨hor, hh⟩ := contents_addRecord_rejected h hv ha hrj key hg
  obtain ⟨ikey, hm⟩ := exists_mem_of_ne_nil _ hks
  simp only [if_pos ho] at hor hh
  refine ⟨hw.schema.registered_iff.mpr hg, ikey, ?_, fun prim => ?_⟩
  · rw [hor]
    exact Finset.mem_union_right _ (mem_toFinset.mpr hm)
  · rw [hh]
    exact fun hno => hno.2 hm

end ObjectStoreState

end QtWebKit.IndexedDB
