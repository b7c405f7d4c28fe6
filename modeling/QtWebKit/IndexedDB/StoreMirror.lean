import QtWebKit.IndexedDB.KeyRanges

/-! # Indexes along a run of store operations

Deleting records and clearing keep every index a mirror of the records. A put and
the creation of an index do so under a condition on the state before them, and
break the mirror whenever the condition fails. -/

namespace QtWebKit.IndexedDB

open Lib List Option Function MemoryIndex

variable {Key Value : Type} [IDBKeyData Key] {scr : Script Key Value}

namespace ObjectStoreState

variable {st : ObjectStoreState Key Value}

section

variable {enum : Enumeration}

/-- A range of several keys is deleted record by record. -/
theorem deleteKeysInRange_induction {P : ObjectStoreState Key Value → Prop}
    (hwf : ∀ st, P st → st.WellFormed) (hs : ∀ (st : ObjectStoreState Key Value) key val, P st →
      st.store.record key = some val → P (st.deleteRecord enum key))
    (rounds : Nat) (rng : IDBKeyRangeData Key) (h : P st) :
    P (deleteKeysInRange enum rounds rng st) := by
  induction rounds generalizing rng st with
  | zero => exact h
  | succ rounds ih =>
    rw [deleteKeysInRange]
    split
    · exact h
    case h_2 key hlw =>
      obtain ⟨val, hv⟩ :=
        record_of_lowestKeyWithRecordInRange (hwf st h) hlw
      exact ih _ (hs st key val h hv)

theorem deleteRange_induction {P : ObjectStoreState Key Value → Prop}
    (hwf : ∀ st, P st → st.WellFormed) (hs : ∀ (st : ObjectStoreState Key Value) key, P st →
      P (st.deleteRecord enum key)) (rng : IDBKeyRangeData Key) (h : P st) :
    P (st.deleteRange enum rng) := by
  rw [deleteRange]
  split
  · exact hs st _ h
  · exact deleteKeysInRange_induction hwf (fun st key _ hst _ => hs st key hst)
      _ rng h

theorem deleteRange_ofKey {key} (h : IDBKeyData.isValid key = true) :
    st.deleteRange enum (.ofKey key) = st.deleteRecord enum key := by
  have hon : (IDBKeyRangeData.ofKey key).exactlyOneKey = some key := by
    simp [IDBKeyRangeData.exactlyOneKey, IDBKeyRangeData.ofKey, h]
  rw [deleteRange, hon]

end

/-- What `m_clearedKeyValueMaps` has for the store. -/
def saved (state : ObjectStoreState Key Value) : Option (Option (KeyValueMap Key Value)) :=
  state.transaction.clearedKeyValueMaps.lookup state.address

/-- What clearing some indexes does: those that were not cleared before give up their entries to
the transaction. -/
structure ClearsIndexes (indexes : List Address) (before after : ObjectStoreState Key Value) :
    Prop where
  address : after.address = before.address
  store : after.store = before.store
  nextIndex : after.nextIndex = before.nextIndex
  transaction : after.transaction = { before.transaction with
    clearedIndexValueStores := after.transaction.clearedIndexValueStores }
  index : ∀ index,
    if index ∈ indexes ∧ before.transaction.clearedIndexValueStores.lookup index = none then
      after.heap index = (before.heap index).replaceIndexValueStore none ∧
        after.transaction.clearedIndexValueStores.lookup index = some (before.heap index).records
    else after.heap index = before.heap index ∧
      after.transaction.clearedIndexValueStores.lookup index =
        before.transaction.clearedIndexValueStores.lookup index

omit [IDBKeyData Key] in
theorem objectStoreCleared_of_cleared {idx}
    (h : (st.transaction.clearedIndexValueStores.lookup idx).isSome = true) :
    st.objectStoreCleared idx = st := by
  rw [objectStoreCleared, MemoryBackingStoreTransaction.indexCleared, if_pos h]
  simp

omit [IDBKeyData Key] in
theorem clearsIndexes_foldl (idxs : List Address) (st : ObjectStoreState Key Value) :
    ClearsIndexes idxs st (idxs.foldl objectStoreCleared st) := by
  induction idxs generalizing st with
  | nil => exact ⟨rfl, rfl, rfl, rfl, fun idx => by simp⟩
  | cons first rest ih =>
    rw [foldl_cons]
    by_cases hfs : (st.transaction.clearedIndexValueStores.lookup first).isSome = true
    · rw [objectStoreCleared_of_cleared hfs]
      have hcl := ih st
      refine ⟨hcl.address, hcl.store, hcl.nextIndex, hcl.transaction, fun idx => ?_⟩
      have hidx := hcl.index idx
      by_cases hi : idx = first
      · subst hi
        rw [if_neg (by rintro ⟨-, hno⟩; simp [hno] at hfs)] at hidx ⊢
        exact hidx
      · simpa [hi] using hidx
    · have hcl := ih (st.objectStoreCleared first)
      have hst : st.transaction.indexCleared first (st.heap first).records = _ := if_neg hfs
      simp only [objectStoreCleared, hst] at hcl ⊢
      refine ⟨hcl.address, hcl.store, hcl.nextIndex, hcl.transaction, fun idx => ?_⟩
      have hidx := hcl.index idx
      by_cases hi : idx = first
      · subst hi
        simp_all [replaceIndexValueStore]
      · simpa [hi] using hidx

omit [IDBKeyData Key] in
theorem ClearsIndexes.sameIndexes {idxs} {pre after : ObjectStoreState Key Value}
    (h : ClearsIndexes idxs pre after) : SameIndexes idxs pre.heap after.heap := by
  refine ⟨fun idx => ?_, fun idx => ?_, fun idx hi => ?_⟩ <;> have hidx := h.index idx
  · split_ifs at hidx
    · rw [hidx.1, replaceIndexValueStore]
    · rw [hidx.1]
  · split_ifs at hidx
    · rw [hidx.1, replaceIndexValueStore]
    · rw [hidx.1]
  · rw [if_neg fun hm => hi hm.1] at hidx
    exact hidx.1

section

variable (enum : Enumeration)

/-- The state of the store when `clear` comes to its indexes. -/
def clearedStore (state : ObjectStoreState Key Value) : ObjectStoreState Key Value :=
  { state with
    store := if state.saved.isSome then state.store
      else { state.store with keyValueStore := none, orderedKeys := none }
    transaction := (state.transaction.objectStoreCleared state.address
      state.store.keyValueStore state.store.orderedKeys).1 }

omit [IDBKeyData Key] in
theorem clearsIndexes_clear (st : ObjectStoreState Key Value) :
    ClearsIndexes (enum.values st.store.indexesByIdentifier) st.clearedStore (st.clear enum) := by
  rw [clear, clearedStore, MemoryBackingStoreTransaction.objectStoreCleared, saved]
  split_ifs <;> exact clearsIndexes_foldl _ _

omit [IDBKeyData Key] in
theorem clearedIndexValueStores_clearedStore (st : ObjectStoreState Key Value) :
    st.clearedStore.transaction.clearedIndexValueStores =
      st.transaction.clearedIndexValueStores := by
  rw [clearedStore, MemoryBackingStoreTransaction.objectStoreCleared]
  split_ifs <;> rfl

/-- An index that was cleared before keeps its entries. -/
theorem heap_clear (h : st.WellFormed) {idx} (hi : st.Registered idx) :
    (st.clear enum).heap idx =
      if (st.transaction.clearedIndexValueStores.lookup idx).isSome then st.heap idx
      else (st.heap idx).replaceIndexValueStore none := by
  have hidx := (clearsIndexes_clear enum st).index idx
  rw [clearedIndexValueStores_clearedStore] at hidx
  simp only [h.mem_valuesByIdentifier_iff.mpr hi, true_and] at hidx
  cases hst : st.transaction.clearedIndexValueStores.lookup idx with
  | none =>
    rw [if_pos hst] at hidx
    exact hidx.1
  | some recs =>
    rw [if_neg (by simp [hst])] at hidx
    exact hidx.1

/-- The second clear leaves the records. -/
theorem writes_clear (h : st.WellFormed) : Writes st (st.clear enum)
    (if st.saved.isSome then st.store.record else fun _ => none) := by
  have hcl := clearsIndexes_clear enum st
  have hso : (st.clear enum).store = _ := hcl.store
  simp only [clearedStore] at hso
  have hsc : KeepsSchema st (st.clear enum) := by
    refine ⟨hcl.address, hcl.nextIndex, ?_, ?_, ?_, ?_, hcl.sameIndexes.info,
      hcl.sameIndexes.objectStore, fun idx hi => hcl.sameIndexes.heap idx
        (h.mem_valuesByIdentifier_iff.not.mpr hi)⟩
    all_goals rw [hso]; split_ifs <;> rfl
  refine ⟨hsc, hsc.wellFormed h ?_, fun key => ?_, ?_⟩ <;> rw [hso] <;> split_ifs
  · exact h.orderedKeys
  all_goals rfl

end

section

/-- The records that populating an index gets to. -/
def reached (script : Script Key Value) (records : List (Key × Option Value)) :
    List (Key × Option Value) :=
  records.takeWhile fun record => !script.yieldsNothing record.2

/-- Two records share a key of a unique index. -/
def Clashes (script : Script Key Value) (info : IDBIndexInfo)
    (records : List (Key × Option Value)) : Prop :=
  info.unique = true ∧ ∃ first ∈ records, ∃ second ∈ records, first.1 ≠ second.1 ∧
    ∃ indexKey ∈ script.indexKeys info first.2, indexKey ∈ script.indexKeys info second.2

variable {idx : MemoryIndex Key} {records : List (Key × Option Value)}

variable {rcd : Key × Option Value} {rest : List (Key × Option Value)}

/-- One round of the population: the record goes into the index, unless it is rejected. -/
theorem populate_cons (hv : scr.yieldsNothing rcd.2 = false) (h : idx.Lists)
    (rest : List (Key × Option Value)) :
    (Rejects scr rcd.2 idx →
      (populateIndexWithExistingRecords scr (rcd :: rest) idx).2 = some .constraint) ∧
    (¬ Rejects scr rcd.2 idx → populateIndexWithExistingRecords scr (rcd :: rest) idx =
        populateIndexWithExistingRecords scr rest (putInto scr rcd.1 rcd.2 idx)) := by
  obtain ⟨key, val⟩ := rcd
  rw [populateIndexWithExistingRecords, if_neg (by simp [hv])]
  by_cases hn : scr.generateIndexKeyForValue idx.info val = []
  · refine ⟨fun hrj => absurd hrj (not_rejects_of_null hn), fun _ => ?_⟩
    simp only [hn, putInto_of_null hn]
  · rw [rejects_iff_refuses hn]
    refine ⟨fun hrf => ?_, fun hac => ?_⟩
    · have hp := putIndexKey_refused h hrf key
      split
      · exact absurd ‹_› hn
      · split
        case h_1 heq =>
          rw [heq] at hp
          exact hp.1
        case h_2 heq =>
          rw [heq] at hp
          exact absurd hp.1 (by simp)
    · have hp := putIndexKey_accepted h hac key
      rw [putInto_of_ne_null hn]
      split
      · exact absurd ‹_› hn
      · split
        case h_1 heq =>
          rw [heq] at hp
          exact absurd hp.1 (by simp)
        case h_2 heq => rw [heq]

theorem populate_of_yieldsNothing (hv : scr.yieldsNothing rcd.2 = true) :
    populateIndexWithExistingRecords scr (rcd :: rest) idx = (idx, none) := by
  exact if_pos hv

omit [IDBKeyData Key] in
theorem reached_cons_of_yieldsNothing (hv : scr.yieldsNothing rcd.2 = true) :
    reached scr (rcd :: rest) = [] := by
  simp [reached, hv]

omit [IDBKeyData Key] in
theorem reached_cons (hv : scr.yieldsNothing rcd.2 = false) :
    reached scr (rcd :: rest) = rcd :: reached scr rest := by
  simp [reached, hv]

/-- A population without an error has entered the records it got to. -/
theorem populate_spec (h : idx.Consistent)
    (hno : (populateIndexWithExistingRecords scr records idx).2 = none) :
    (populateIndexWithExistingRecords scr records idx).1.info = idx.info ∧
    (populateIndexWithExistingRecords scr records idx).1.objectStore = idx.objectStore ∧
    (populateIndexWithExistingRecords scr records idx).1.Consistent ∧ ∀ ikey prim,
      (populateIndexWithExistingRecords scr records idx).1.Holds ikey prim ↔
        idx.Holds ikey prim ∨ ∃ val, (prim, val) ∈ reached scr records ∧
          ikey ∈ scr.indexKeys idx.info val := by
  induction records generalizing idx with
  | nil => exact ⟨rfl, rfl, h, fun ikey prim => by simp [reached, populateIndexWithExistingRecords]⟩
  | cons rcd rest ih =>
    by_cases hv : scr.yieldsNothing rcd.2 = true
    · rw [populate_of_yieldsNothing hv, reached_cons_of_yieldsNothing hv]
      exact ⟨rfl, rfl, h, fun ikey prim => by simp⟩
    · rw [Bool.not_eq_true] at hv
      obtain ⟨hrd, hp⟩ := populate_cons hv h.toLists rest
      have hac : ¬ Rejects scr rcd.2 idx := by
        intro hrj
        rw [hrd hrj] at hno
        cases hno
      rw [hp hac] at hno ⊢
      obtain ⟨hio, hso, haf, hps⟩ := ih (consistent_putInto h) hno
      refine ⟨hio.trans info_putInto, hso.trans objectStore_putInto, haf, fun ikey prim => ?_⟩
      rw [hps, holds_putInto h.toLists hac, info_putInto, reached_cons hv]
      constructor
      · rintro ((hd | ⟨hm, rfl⟩) | ⟨val, hm, hk⟩)
        · exact .inl hd
        · exact .inr ⟨rcd.2, mem_cons_self, hm⟩
        · exact .inr ⟨val, mem_cons_of_mem _ hm, hk⟩
      · rintro (hd | ⟨val, hm, hk⟩)
        · exact .inl (.inl hd)
        · rcases mem_cons.mp hm with heq | hr
          · rw [← heq]
            exact .inl (.inr ⟨hk, rfl⟩)
          · exact .inr ⟨val, hr, hk⟩

/-- Records with keys of their own go into a unique index one after the other. -/
theorem populate_eq_none (h : idx.Consistent) (hnd : (records.map Prod.fst).Nodup)
    (hfe : ∀ rcd ∈ reached scr records, ¬ Rejects scr rcd.2 idx)
    (hcl : ¬ Clashes scr idx.info (reached scr records)) :
    (populateIndexWithExistingRecords scr records idx).2 = none := by
  induction records generalizing idx with
  | nil => rfl
  | cons rcd rest ih =>
    by_cases hv : scr.yieldsNothing rcd.2 = true
    · rw [populate_of_yieldsNothing hv]
    · rw [Bool.not_eq_true] at hv
      rw [reached_cons hv] at hfe hcl
      rw [map_cons, nodup_cons] at hnd
      rw [forall_mem_cons] at hfe
      rw [(populate_cons hv h.toLists rest).2 hfe.1]
      apply ih (consistent_putInto h) hnd.2
      · rintro oth ho ⟨hun, ikey, hk, prim, hpm⟩
        rw [info_putInto] at hun hk
        rcases (holds_putInto h.toLists hfe.1 rcd.1 ikey prim).mp hpm with hd | ⟨hm, -⟩
        · exact hfe.2 oth ho ⟨hun, ikey, hk, prim, hd⟩
        · have hne : rcd.1 ≠ oth.1 := by
            intro heq
            apply hnd.1
            rw [heq]
            exact mem_map_of_mem (takeWhile_subset _ ho)
          exact hcl ⟨hun, rcd, mem_cons_self, oth, mem_cons_of_mem _ ho, hne, ikey, hm, hk⟩
      · rw [info_putInto]
        rintro ⟨hun, first, hf, snd, hsn, hne, hsh⟩
        exact hcl ⟨hun, first, mem_cons_of_mem _ hf, snd, mem_cons_of_mem _ hsn, hne, hsh⟩

/-- A new index can be populated exactly if the records it gets to do not clash. -/
theorem populate_create_eq_none_iff (hnd : (records.map Prod.fst).Nodup) (info : IDBIndexInfo)
    (addr : Address) :
    (populateIndexWithExistingRecords scr records (.create info addr)).2 = none ↔
      ¬ Clashes scr info (reached scr records) := by
  have hct : (create info addr : MemoryIndex Key).Consistent :=
    consistent_create info addr
  constructor
  · rintro hno ⟨hun, first, hf, snd, hsn, hne, ikey, hk, hk'⟩
    obtain ⟨hio, -, hcn, hh⟩ := populate_spec hct hno
    have hun' : (populateIndexWithExistingRecords scr records
        (.create info addr)).1.info.unique = true := by
      rw [hio]
      exact hun
    exact hne (hcn.eq_of_holds hun' ((hh ikey first.1).mpr (.inr ⟨first.2, hf, hk⟩))
      ((hh ikey snd.1).mpr (.inr ⟨snd.2, hsn, hk'⟩)))
  · intro hcl
    refine populate_eq_none hct hnd ?_ hcl
    rintro rcd - ⟨-, ikey, -, prim, hpm⟩
    exact not_holds_create info addr ikey prim hpm

end

section

variable (enum : Enumeration)

theorem mem_records {key val} : (key, val) ∈ st.records enum ↔ st.store.record key = some val := by
  rw [records, enum.mem_entries, MemoryObjectStore.record]
  cases st.store.keyValueStore <;> simp

omit [IDBKeyData Key] in
theorem nodup_keys_records : ((st.records enum).map Prod.fst).Nodup :=
  enum.nodup_keys _

/-- Populating an index ends before a record that has keys for it. -/
def SkipsRecords (script : Script Key Value) (info : IDBIndexInfo)
    (records : List (Key × Option Value)) : Prop :=
  ∃ record ∈ records.dropWhile fun record => !script.yieldsNothing record.2,
    script.indexKeys info record.2 ≠ []

/-- The name and the identifier of a new index are those of no index of the store, as
`IDBObjectStore::createIndex` sees to. -/
structure FreshIndex (state : ObjectStoreState Key Value) (info : IDBIndexInfo) : Prop where
  name : state.store.indexesByName.lookup info.name = none
  identifier : state.store.indexesByIdentifier.lookup info.identifier = none

variable {info : IDBIndexInfo}

/-- The state after the creation of an index that could be populated. -/
theorem createIndex_eq (hwr : st.store.writeTransaction = true)
    (hvr : st.transaction.isVersionChange = true)
    (hcl : ¬ Clashes scr info (reached scr (st.records enum))) :
    (st.createIndex scr enum info).1 =
      { st with
        store := { st.store with
          info := st.store.info.addExistingIndex info }.registerIndex info st.nextIndex
        heap := update st.heap st.nextIndex
          (populateIndexWithExistingRecords scr (st.records enum) (.create info st.address)).1
        nextIndex := st.nextIndex + 1
        transaction := st.transaction.addNewIndex st.nextIndex } := by
  have hno := (populate_create_eq_none_iff (nodup_keys_records enum) info st.address).mpr hcl
  rw [createIndex, if_pos (by rw [hwr, hvr]; rfl)]
  split
  case h_1 heq =>
    rw [heq] at hno
    cases hno
  case h_2 heq => rw [heq]

/-- An index whose population fails is not created. -/
theorem createIndex_of_clashes (hcl : Clashes scr info (reached scr (st.records enum))) :
    (st.createIndex scr enum info).1 = st := by
  have hse := (populate_create_eq_none_iff (nodup_keys_records enum) info
    st.address).not.mpr (not_not.mpr hcl)
  rw [createIndex]
  split
  · split
    · rfl
    case h_2 heq =>
      rw [heq] at hse
      exact absurd rfl hse
  · rfl

/-- The fields that creating an index touches, under the names that the proofs use. -/
structure Creates (script : Script Key Value) (enum : Enumeration)
    (before after : ObjectStoreState Key Value) (info : IDBIndexInfo) : Prop where
  record : after.store.record = before.store.record
  registered_iff : ∀ index, after.Registered index ↔
    before.Registered index ∨ index = before.nextIndex
  heap : ∀ index, before.Registered index → after.heap index = before.heap index
  indexInfo : (after.heap before.nextIndex).info = info
  consistent : (after.heap before.nextIndex).Consistent
  holds_iff : ∀ indexKey primary, (after.heap before.nextIndex).Holds indexKey primary ↔
    ∃ value, (primary, value) ∈ reached script (before.records enum) ∧
      indexKey ∈ script.indexKeys info value

/-- One more index in the tables of a store, under a name and an identifier of its own. -/
theorem WellFormed.registerIndex {after : ObjectStoreState Key Value} (h : st.WellFormed)
    (hfr : st.FreshIndex info) (idx : Address) (hlt : idx < after.nextIndex)
    (hnx : st.nextIndex ≤ after.nextIndex)
    (hby : after.store.indexesByName = st.store.indexesByName.insert info.name idx)
    (hbd : after.store.indexesByIdentifier =
      st.store.indexesByIdentifier.insert info.identifier idx)
    (hor : after.store.orderedKeys = st.store.orderedKeys)
    (hso : after.store.keyValueStore = st.store.keyValueStore) (hio : (after.heap idx).info = info)
    (hd : ∀ oth, st.Registered oth → (after.heap oth).info = (st.heap oth).info) :
    after.WellFormed := by
  refine ⟨fun name oth hnm => ?_, fun ident oth hid => ?_, ?_⟩
  · rw [hby, Table.lookup_insert_eq] at hnm
    rw [hbd, Table.lookup_insert_eq]
    by_cases hw : name = info.name
    · rw [if_pos hw] at hnm
      obtain rfl := some.inj hnm
      rw [hio]
      exact ⟨hlt, hw.symm, if_pos rfl⟩
    · rw [if_neg hw] at hnm
      obtain ⟨hlh, hnm', hid⟩ := h.byName name oth hnm
      rw [hd oth ⟨name, hnm⟩]
      refine ⟨hlh.trans_le hnx, hnm', ?_⟩
      rw [if_neg, hid]
      intro heq
      rw [heq, hfr.identifier] at hid
      cases hid
  · rw [hbd, Table.lookup_insert_eq] at hid
    rw [hby, Table.lookup_insert_eq]
    by_cases hw : ident = info.identifier
    · rw [if_pos hw] at hid
      obtain rfl := some.inj hid
      rw [hio]
      exact ⟨hw.symm, if_pos rfl⟩
    · rw [if_neg hw] at hid
      obtain ⟨hid', hnm⟩ := h.byIdentifier ident oth hid
      rw [hd oth ⟨_, hnm⟩]
      refine ⟨hid', ?_⟩
      rw [if_neg, hnm]
      intro heq
      rw [heq, hfr.name] at hnm
      cases hnm
  · rw [hor, hso, h.orderedKeys]

theorem wellFormed_createIndex (h : st.WellFormed) (hfr : st.FreshIndex info) :
    (st.createIndex scr enum info).1.WellFormed := by
  by_cases hal : st.store.writeTransaction = true ∧ st.transaction.isVersionChange = true
  swap
  · rw [createIndex, if_neg (by simpa using hal)]
    exact h
  by_cases hcl : Clashes scr info (reached scr (st.records enum))
  · rw [createIndex_of_clashes enum hcl]
    exact h
  have hno := (populate_create_eq_none_iff (nodup_keys_records enum) info st.address).mpr hcl
  obtain ⟨hio, -⟩ := populate_spec (consistent_create info st.address) hno
  rw [createIndex_eq enum hal.1 hal.2 hcl]
  refine h.registerIndex hfr st.nextIndex (Nat.lt_succ_self _) (Nat.le_succ _) rfl rfl rfl rfl ?_ ?_
  · dsimp only
    rw [update_self, hio]
    rfl
  · rintro oth ⟨name, hnm⟩
    dsimp only
    rw [update_of_ne (Nat.ne_of_lt (h.byName name oth hnm).1)]

theorem creates_createIndex (h : st.WellFormed) (hfr : st.FreshIndex info)
    (hwr : st.store.writeTransaction = true) (hvr : st.transaction.isVersionChange = true)
    (hcl : ¬ Clashes scr info (reached scr (st.records enum))) :
    Creates scr enum st (st.createIndex scr enum info).1 info := by
  have hno := (populate_create_eq_none_iff (nodup_keys_records enum) info st.address).mpr hcl
  obtain ⟨hio, -, hcn, hh⟩ :=
    populate_spec (consistent_create info st.address) hno
  rw [createIndex_eq enum hwr hvr hcl]
  refine ⟨rfl, fun idx => ?_, fun idx hi => ?_, ?_, ?_, fun ikey prim => ?_⟩
  · simp only [Registered, MemoryObjectStore.registerIndex, Table.lookup_insert_eq]
    constructor
    · rintro ⟨name, hnm⟩
      by_cases hw : name = info.name
      · rw [if_pos hw] at hnm
        exact .inr (some.inj hnm).symm
      · rw [if_neg hw] at hnm
        exact .inl ⟨name, hnm⟩
    · rintro (⟨name, hnm⟩ | rfl)
      · refine ⟨name, ?_⟩
        rw [if_neg, hnm]
        intro heq
        rw [heq, hfr.name] at hnm
        cases hnm
      · exact ⟨info.name, if_pos rfl⟩
  · obtain ⟨name, hnm⟩ := hi
    exact update_of_ne (Nat.ne_of_lt (h.byName name idx hnm).1) _ _
  · dsimp only
    rw [update_self, hio]
    rfl
  · dsimp only
    rwa [update_self]
  · dsimp only
    rw [update_self, hh]
    simp only [not_holds_create, false_or]
    rfl

end

section

variable {enum : Enumeration} {info : IDBObjectStoreInfo} {request : PutRequest Key Value}

/-- A unique index refuses a value of which another record has a key. -/
def RefusesPut (script : Script Key Value) (state : ObjectStoreState Key Value) (key : Key)
    (value : Option Value) (index : Address) : Prop :=
  (state.heap index).info.unique = true ∧
    ∃ indexKey ∈ script.indexKeys (state.heap index).info value,
      ∃ primary, primary ≠ key ∧ (state.heap index).Holds indexKey primary

/-- A put is refused after an index has been given a key of it. -/
def TakesBack (script : Script Key Value) (enum : Enumeration)
    (state : ObjectStoreState Key Value) (key : Key) (value : Option Value) : Prop :=
  ∃ earlier index rest, enum.values state.store.indexesByName = earlier ++ index :: rest ∧
    (∀ other ∈ earlier, ¬ state.RefusesPut script key value other) ∧
    state.RefusesPut script key value index ∧
    ∃ other ∈ earlier, script.indexKeys (state.heap other).info value ≠ []

theorem isValid_of_checkPut {key val gen} (h : checkPut scr info st request = .ok (key, val, gen)) :
    IDBKeyData.isValid key = true := by
  have hus : ∃ gen, usedKey info st request = .ok (key, gen) := by
    rw [checkPut] at h
    split at h
    · cases h
    case h_2 key' gen' heq =>
      split at h
      · cases h
      · split at h
        · cases h
        · simp only [Except.ok.injEq, Prod.mk.injEq] at h
          exact ⟨gen', by rw [heq, h.1]⟩
  obtain ⟨gen, hus⟩ := hus
  rw [usedKey] at hus
  split at hus
  · dsimp only at hus
    split at hus
    · cases hus
    · simp only [Except.ok.injEq, Prod.mk.injEq] at hus
      rw [← hus.1]
      exact IDBKeyData.isValid_setNumberValue _
  case h_2 key' hk _ =>
    simp only [Except.ok.injEq, Prod.mk.injEq] at hus
    rw [← hus.1]
    exact request.isValid key' hk
  · cases hus

/-- The number that a failed put gives back is the one the generator had. -/
theorem generated_of_checkPut {key val gen}
    (h : checkPut scr info st request = .ok (key, val, gen)) :
    gen = none ∨ gen = some st.store.keyGeneratorValue := by
  rw [checkPut, usedKey] at h
  grind

/-- A change of the key generator is one of the store alone. -/
structure SameButGenerator (before after : ObjectStoreState Key Value) : Prop where
  address : after.address = before.address
  nextIndex : after.nextIndex = before.nextIndex
  heap : after.heap = before.heap
  transaction : after.transaction = before.transaction
  store : ∃ value, after.store = { before.store with keyGeneratorValue := value }

section

omit [IDBKeyData Key]

theorem sameButGenerator_refl (st : ObjectStoreState Key Value) : SameButGenerator st st :=
  ⟨rfl, rfl, rfl, rfl, st.store.keyGeneratorValue, rfl⟩

theorem sameButGenerator_setKeyGeneratorValue (st : ObjectStoreState Key Value) (val : Nat) :
    SameButGenerator st (st.setKeyGeneratorValue val) :=
  ⟨rfl, rfl, rfl, rfl, val, rfl⟩

theorem sameButGenerator_setGeneratedKeyNumber (st : ObjectStoreState Key Value)
    (gen : Option Nat) : SameButGenerator st (st.setGeneratedKeyNumber gen) := by
  cases gen with
  | none => exact sameButGenerator_refl st
  | some keyNumber => exact sameButGenerator_setKeyGeneratorValue st keyNumber

theorem SameButGenerator.keepsSchema {pre after : ObjectStoreState Key Value}
    (h : SameButGenerator pre after) : KeepsSchema pre after := by
  obtain ⟨ha, hnx, hhp, -, val, hso⟩ := h
  constructor <;> simp [ha, hnx, hhp, hso]

end

theorem SameButGenerator.record {pre after : ObjectStoreState Key Value}
    (h : SameButGenerator pre after) : after.store.record = pre.store.record := by
  obtain ⟨val, hso⟩ := h.store
  rw [hso]
  rfl

theorem SameButGenerator.wellFormed {pre after : ObjectStoreState Key Value}
    (h : SameButGenerator pre after) (hb : pre.WellFormed) : after.WellFormed := by
  apply h.keepsSchema.wellFormed hb
  obtain ⟨val, hso⟩ := h.store
  rw [hso]
  exact hb.orderedKeys

theorem SameButGenerator.sound {pre after : ObjectStoreState Key Value}
    (h : SameButGenerator pre after) (hb : pre.Sound) : after.Sound := by
  refine ⟨h.wellFormed hb.wellFormed, fun idx hi => ?_⟩
  rw [h.heap]
  exact hb.lists idx (h.keepsSchema.registered_iff.mp hi)

theorem SameButGenerator.mirrors_iff {pre after : ObjectStoreState Key Value}
    (h : SameButGenerator pre after) : after.Mirrors scr ↔ pre.Mirrors scr := by
  obtain ⟨ha, hnx, hhp, -, val, hso⟩ := h
  rw [Mirrors]
  simp only [Registered, hso, hhp]
  rfl

/-- A put that passes the checks deletes the old record and adds the new one; the key
generator apart, nothing else happens. The put fails if the addition does, and then the
generator is as before. -/
theorem performPutOrAdd_of_checkPut (enum : Enumeration) {key val gen}
    (h : checkPut scr info st request = .ok (key, val, gen)) :
    let put := st.performPutOrAdd scr enum info request
    ∃ counted, SameButGenerator st counted ∧
      let added := (counted.deleteRecord enum key).addRecord scr enum key val
      SameButGenerator added.1 put.1 ∧ (added.2 = none → put.2 = .ok key) ∧
        (added.2 ≠ none → (∃ error, put.2 = .error error) ∧
          (added.1.store.keyGeneratorValue = counted.store.keyGeneratorValue →
            put.1.store.keyGeneratorValue = st.store.keyGeneratorValue)) := by
  have hvd := isValid_of_checkPut h
  have hc (counted : ObjectStoreState Key Value) :
      counted.deleteRange enum (.ofKey key) = counted.deleteRecord enum key :=
    deleteRange_ofKey hvd
  refine ⟨st.setGeneratedKeyNumber (gen.map (· + 1)),
    sameButGenerator_setGeneratedKeyNumber _ _, ?_⟩
  rw [performPutOrAdd, h]
  simp only [hc]
  split
  case h_1 added error heq =>
    rw [heq]
    refine ⟨sameButGenerator_setGeneratedKeyNumber added gen, nofun, fun _ => ⟨⟨_, rfl⟩, ?_⟩⟩
    rcases generated_of_checkPut h with rfl | rfl
    · exact id
    · exact fun _ => rfl
  case h_2 added heq =>
    rw [heq]
    refine ⟨?_, fun _ => rfl, fun hne => absurd rfl hne⟩
    split
    · rw [maybeUpdateKeyGeneratorNumber]
      split
      · exact sameButGenerator_refl added
      · exact sameButGenerator_setKeyGeneratorValue added _
    · exact sameButGenerator_refl added

theorem performPutOrAdd_of_checkPut_error {error}
    (h : checkPut scr info st request = .error error) :
    (st.performPutOrAdd scr enum info request).1 = st := by
  rw [performPutOrAdd, h]

/-- Once the old record is deleted, an index rejects what another record has a key of. -/
theorem rejects_deleteRecord_iff (h : st.WellFormed) (hmr : st.Mirrors scr)
    {key val idx} (hi : st.Registered idx) :
    Rejects scr val ((st.deleteRecord enum key).heap idx) ↔
      st.RefusesPut scr key val idx := by
  have hsc := keepsSchema_deleteRecord enum h key
  have haf := mirrors_deleteRecord scr enum h hmr key idx
    (hsc.registered_iff.mpr hi)
  rw [Rejects, hsc.indexInfo]
  refine and_congr_right fun _ => exists_congr fun ikey => and_congr_right fun _ =>
    exists_congr fun prim => ?_
  rw [haf.holds_iff, (hmr idx hi).holds_iff, record_deleteRecord, hsc.indexInfo]
  by_cases hpm : prim = key <;> simp [hpm]

end

/-- The requests that change the records of one store or add an index to it. A single record is
deleted as the range of its key. -/
inductive StoreOperation (Key Value : Type) [IDBKeyData Key]
  | createIndex (info : IDBIndexInfo)
  | putOrAdd (request : PutRequest Key Value)
  | deleteRange (range : IDBKeyRangeData Key)
  | clear

/-- One request to a store that the database describes by `info`. -/
def performOperation (script : Script Key Value) (info : IDBObjectStoreInfo)
    (enum : Enumeration) (state : ObjectStoreState Key Value) :
    StoreOperation Key Value → ObjectStoreState Key Value
  | .createIndex indexInfo => (state.createIndex script enum indexInfo).1
  | .putOrAdd request => (state.performPutOrAdd script enum info request).1
  | .deleteRange range => state.deleteRange enum range
  | .clear => state.clear enum

/-- The index holds exactly the pairs of the records, its ordered keys are those with an entry
that is not empty, and a unique index has one primary key for a key. -/
structure HoldsExactly (script : Script Key Value)
    (record : Key → Option (Option Value)) (index : MemoryIndex Key) : Prop where
  pairs : ∀ indexKey primary, index.Holds indexKey primary ↔
    ∃ value, record primary = some value ∧ indexKey ∈ script.indexKeys index.info value
  orderedKeys : ∀ indexKey, indexKey ∈ index.orderedKeys ↔
    ∃ entry, index.entry indexKey = some entry ∧ 0 < entry.getCount
  unique : index.info.unique = true → ∀ indexKey primary primary',
    index.Holds indexKey primary → index.Holds indexKey primary' → primary = primary'

theorem holdsExactly_of_mirrors {rcd} {idx : MemoryIndex Key}
    (h : idx.Mirrors scr rcd) : HoldsExactly scr rcd idx := by
  refine ⟨h.holds_iff, fun ikey => ?_, fun hun _ _ _ => h.consistent.eq_of_holds hun⟩
  rw [← exists_holds_iff]
  exact ⟨h.consistent.ordered ikey, fun ⟨_, hh⟩ => h.consistent.listed_of_holds hh⟩

/-- Every index of the store holds exactly what the records of the store yield. -/
def IndexesExact (script : Script Key Value) (state : ObjectStoreState Key Value) : Prop :=
  ∀ index, state.Registered index →
    HoldsExactly script state.store.record (state.heap index)

/-- What the callers see to before a request is sent. -/
def Promised (state : ObjectStoreState Key Value) : StoreOperation Key Value → Prop
  | .createIndex info => state.FreshIndex info
  | _ => True

/-- The condition under which a request keeps the indexes exact: a refused put has not reached
an index with a key before, a created index misses no record behind one without a value, and a
clear empties an index together with the store, or finds nothing in it. -/
def Safe (script : Script Key Value) (info : IDBObjectStoreInfo) (enum : Enumeration)
    (state : ObjectStoreState Key Value) : StoreOperation Key Value → Prop
  | .createIndex indexInfo =>
    state.store.writeTransaction = true → state.transaction.isVersionChange = true →
      ¬ Clashes script indexInfo (reached script (state.records enum)) →
      ¬ SkipsRecords script indexInfo (state.records enum)
  | .putOrAdd request =>
    ∀ key value generated, checkPut script info state request = .ok (key, value, generated) →
      ¬ state.TakesBack script enum key value
  | .clear =>
    ∀ index, state.Registered index →
      (state.transaction.clearedIndexValueStores.lookup index).isSome = state.saved.isSome ∨
        ∀ indexKey primary, ¬ (state.heap index).Holds indexKey primary
  | .deleteRange _ => True

variable {enum : Enumeration} {info : IDBObjectStoreInfo}

omit [IDBKeyData Key] in
theorem mem_reached_or_mem_dropWhile (scr : Script Key Value)
    {records : List (Key × Option Value)} {rcd : Key × Option Value} (h : rcd ∈ records) :
    rcd ∈ reached scr records ∨
      rcd ∈ records.dropWhile fun rcd => !scr.yieldsNothing rcd.2 := by
  rw [← takeWhile_append_dropWhile (p := fun rcd => !scr.yieldsNothing rcd.2)
    (l := records), mem_append] at h
  exact h

omit [IDBKeyData Key] in
/-- A key is the key of one record, before or behind the end of the population. -/
theorem not_mem_reached {records : List (Key × Option Value)}
    (hnd : (records.map Prod.fst).Nodup) {rcd : Key × Option Value}
    (h : rcd ∈ records.dropWhile fun rcd => !scr.yieldsNothing rcd.2)
    (val : Option Value) : (rcd.1, val) ∉ reached scr records := by
  intro hm
  rw [← takeWhile_append_dropWhile (p := fun rcd => !scr.yieldsNothing rcd.2)
    (l := records), map_append, nodup_append] at hnd
  exact hnd.2.2 rcd.1 (mem_map.mpr ⟨_, hm, rfl⟩) rcd.1 (mem_map_of_mem h) rfl

/-- Creating an index: the step of the run. -/
theorem createIndex_step {indexInfo} (h : st.WellFormed)
    (hmr : st.Mirrors scr) (hfr : st.FreshIndex indexInfo) :
    (st.Safe scr info enum (.createIndex indexInfo) →
      (st.createIndex scr enum indexInfo).1.Mirrors scr) ∧
    (¬ st.Safe scr info enum (.createIndex indexInfo) →
      ¬ (st.createIndex scr enum indexInfo).1.IndexesExact scr) := by
  by_cases hal : st.store.writeTransaction = true ∧ st.transaction.isVersionChange = true
  swap
  · have hsm : (st.createIndex scr enum indexInfo).1 = st := by
      rw [createIndex, if_neg (by simpa using hal)]
    refine ⟨fun _ => by rwa [hsm], fun hu => absurd ?_ hu⟩
    intro hwr hvr
    exact absurd ⟨hwr, hvr⟩ hal
  by_cases hcl : Clashes scr indexInfo (reached scr (st.records enum))
  · refine ⟨fun _ => by rwa [createIndex_of_clashes enum hcl], fun hu => ?_⟩
    exact absurd (fun _ _ hcl' => absurd hcl hcl') hu
  have hcr := creates_createIndex enum h hfr hal.1 hal.2 hcl
  constructor
  · intro hsf idx hi
    have hcm := hsf hal.1 hal.2 hcl
    rw [hcr.record]
    rcases (hcr.registered_iff idx).mp hi with hd | rfl
    · rw [hcr.heap idx hd]
      exact hmr idx hd
    · refine ⟨hcr.consistent, fun ikey prim => ?_⟩
      rw [hcr.holds_iff, hcr.indexInfo]
      refine exists_congr fun val => and_congr_left fun hk => ?_
      rw [← mem_records enum]
      refine ⟨fun hm => takeWhile_subset _ hm, fun hm => ?_⟩
      rcases mem_reached_or_mem_dropWhile scr hm with hrc | hdr
      · exact hrc
      · exact absurd ⟨_, hdr, ne_nil_of_mem hk⟩ hcm
  · intro hu hex
    simp only [Safe, hal.1, hal.2, hcl, not_false_eq_true, forall_const, not_not] at hu
    obtain ⟨rcd, hdr, hks⟩ := hu
    obtain ⟨ikey, hk⟩ := exists_mem_of_ne_nil _ hks
    have hg := (hcr.registered_iff st.nextIndex).mpr (.inr rfl)
    have hps := (hex _ hg).pairs ikey rcd.1
    rw [hcr.holds_iff, hcr.indexInfo, hcr.record] at hps
    obtain ⟨val, hrc, -⟩ := hps.mpr ⟨rcd.2,
      (mem_records enum).mp (dropWhile_subset _ hdr), hk⟩
    exact not_mem_reached (nodup_keys_records enum) hdr val hrc

theorem SameButGenerator.takesBack_iff {pre after : ObjectStoreState Key Value}
    (h : SameButGenerator pre after) {key val} :
    after.TakesBack scr enum key val ↔
      pre.TakesBack scr enum key val := by
  obtain ⟨generator, hso⟩ := h.store
  simp only [TakesBack, RefusesPut, h.heap, hso]

theorem SameButGenerator.indexesExact_iff {pre after : ObjectStoreState Key Value}
    (h : SameButGenerator pre after) : after.IndexesExact scr ↔ pre.IndexesExact scr := by
  obtain ⟨generator, hso⟩ := h.store
  simp only [IndexesExact, Registered, h.heap, hso]
  rfl

/-- A record replaced by another: the indexes mirror the new records unless the put is taken
back, which leaves an index with a key that has no entry. -/
theorem replaceRecord_step (h : st.WellFormed) (hmr : st.Mirrors scr)
    (enum : Enumeration) (key : Key) (val : Option Value) :
    let after := ((st.deleteRecord enum key).addRecord scr enum key val).1
    after.WellFormed ∧
    (¬ st.TakesBack scr enum key val → after.Mirrors scr) ∧
    (st.TakesBack scr enum key val →
      ∃ idx, after.Registered idx ∧ ∃ ikey, ikey ∈ (after.heap idx).orderedKeys ∧
        ∀ prim, ¬ (after.heap idx).Holds ikey prim) := by
  have hdl : Writes st (st.deleteRecord enum key) _ := writes_deleteRecord h key
  have hdt := mirrors_deleteRecord scr enum h hmr key
  have hno : (st.deleteRecord enum key).store.record key = none := by
    rw [hdl.record, if_pos rfl]
  have hvl : enum.values (st.deleteRecord enum key).store.indexesByName =
      enum.values st.store.indexesByName := by
    rw [hdl.schema.indexesByName]
  have hrj {idx} (hi : idx ∈ enum.values st.store.indexesByName) :
      Rejects scr val ((st.deleteRecord enum key).heap idx) ↔
        st.RefusesPut scr key val idx :=
    rejects_deleteRecord_iff h hmr (mem_values_iff.mp hi)
  -- what is known of the indexes in front of a first one that refuses
  have her {prev rest} {idx}
      (hsp : enum.values st.store.indexesByName = prev ++ idx :: rest)
      {oth} (ho : oth ∈ prev) :
      Rejects scr val ((st.deleteRecord enum key).heap oth) ↔
        st.RefusesPut scr key val oth := by
    apply hrj
    rw [hsp]
    exact mem_append_left _ ho
  have hf {prev rest} {idx}
      (hsp : enum.values st.store.indexesByName = prev ++ idx :: rest) :
      Rejects scr val ((st.deleteRecord enum key).heap idx) ↔
        st.RefusesPut scr key val idx := by
    apply hrj
    rw [hsp]
    exact mem_append_right _ mem_cons_self
  refine ⟨?_, fun hkp => ?_, ?_⟩
  · exact (writes_addRecord hdl.wellFormed hno).2.wellFormed
  · rcases rejects_cases scr val (st.deleteRecord enum key).heap
      (enum.values (st.deleteRecord enum key).store.indexesByName) with
      hall | ⟨prev, idx, rest, hsp, hac, hi⟩
    · exact (addRecord_accepted hdl.wellFormed hdt hno (fun idx hg => hall idx
        (mem_values_iff.mpr hg)) enum).2.2.2
    · refine mirrors_addRecord_rejected (hdt.sound hdl.wellFormed) hno hsp hac hi hdt
        fun oth ho => ?_
      rw [hvl] at hsp
      by_contra hks
      rw [hdl.schema.indexInfo] at hks
      exact hkp ⟨prev, idx, rest, hsp, fun oth ho => (her hsp ho).not.mp (hac oth ho),
        (hf hsp).mp hi, oth, ho, hks⟩
  · rintro ⟨prev, idx, rest, hsp, hac, hi, oth, ho, hks⟩
    rw [← hdl.schema.indexInfo] at hks
    exact ⟨oth, exists_stale_of_rejected (hdt.sound hdl.wellFormed) hno (hvl.trans
      hsp) (fun oth ho => (her hsp ho).not.mpr (hac oth ho)) ((hf hsp).mpr hi) ho hks⟩

/-- A put: the step of the run. -/
theorem performPutOrAdd_step {request} (h : st.WellFormed) (hmr : st.Mirrors scr) :
    (st.performPutOrAdd scr enum info request).1.WellFormed ∧
    (st.Safe scr info enum (.putOrAdd request) →
      (st.performPutOrAdd scr enum info request).1.Mirrors scr) ∧
    (¬ st.Safe scr info enum (.putOrAdd request) →
      ¬ (st.performPutOrAdd scr enum info request).1.IndexesExact scr) := by
  cases hch : checkPut scr info st request with
  | error error =>
    rw [performPutOrAdd_of_checkPut_error hch]
    refine ⟨h, fun _ => hmr, fun hu => absurd ?_ hu⟩
    intro key val gen hok
    rw [hch] at hok
    cases hok
  | ok checked =>
    obtain ⟨key, val, gen⟩ := checked
    obtain ⟨counted, hc, hl, -⟩ := performPutOrAdd_of_checkPut enum hch
    have hsf : st.Safe scr info enum (.putOrAdd request) ↔
        ¬ counted.TakesBack scr enum key val := by
      rw [hc.takesBack_iff]
      constructor
      · intro hsf
        exact hsf key val gen hch
      · intro hkp key' val' gen' hok
        rw [hch] at hok
        simp only [Except.ok.injEq, Prod.mk.injEq] at hok
        rwa [← hok.1, ← hok.2.1]
    obtain ⟨hwf, hkp, hbr⟩ := replaceRecord_step (hc.wellFormed h)
      (hc.mirrors_iff.mpr hmr) enum key val
    refine ⟨hl.wellFormed hwf, fun h => hl.mirrors_iff.mpr (hkp (hsf.mp h)), fun hu hex => ?_⟩
    obtain ⟨idx, hi, ikey, hls, hno⟩ :=
      hbr (not_not.mp (hsf.not.mp hu))
    obtain ⟨prim, hhl⟩ := exists_holds_iff.mpr
      (((hl.indexesExact_iff.mp hex idx hi).orderedKeys ikey).mp hls)
    exact hno prim hhl

/-- An emptied index mirrors records that yield no key for it. -/
theorem mirrors_emptied {rcd} {idx : MemoryIndex Key}
    (h : ∀ ikey prim, ¬ ∃ val, rcd prim = some val ∧ ikey ∈ scr.indexKeys idx.info val) :
    (idx.replaceIndexValueStore none).Mirrors scr rcd := by
  refine ⟨idx.consistent_emptied, fun ikey prim => ?_⟩
  refine iff_of_false ?_ (h ikey prim)
  simp [MemoryIndex.Holds, replaceIndexValueStore]

/-- A clear: the step of the run. -/
theorem clear_step (h : st.WellFormed) (hmr : st.Mirrors scr) :
    (st.Safe scr info enum .clear → (st.clear enum).Mirrors scr) ∧
    (¬ st.Safe scr info enum .clear → ¬ (st.clear enum).IndexesExact scr) := by
  have hw := writes_clear enum h
  constructor
  · intro hsf idx hi
    have hg := hw.schema.registered_iff.mp hi
    have hm := hmr idx hg
    rw [heap_clear enum h hg, funext hw.record]
    have hem : (∀ ikey prim, ¬ (st.heap idx).Holds ikey prim) → ∀ ikey prim, ¬ ∃ val,
        st.store.record prim = some val ∧ ikey ∈ scr.indexKeys (st.heap idx).info val :=
      fun hno ikey prim => (hm.holds_iff ikey prim).not.mp (hno ikey prim)
    split_ifs with hst hix hix
    · exact hm
    · exact mirrors_emptied (hem ((hsf idx hg).resolve_left (by simp [hst, hix])))
    · refine ⟨hm.consistent, fun ikey prim => ?_⟩
      have hno := (hsf idx hg).resolve_left (by simp [hst, hix])
      simp [hno]
    · exact mirrors_emptied (by simp)
  · intro hu hex
    simp only [Safe, not_forall, not_or, not_not] at hu
    obtain ⟨idx, hg, hne, ikey, prim, hho⟩ := hu
    have hps := (hex idx (hw.schema.registered_iff.mpr hg)).pairs ikey prim
    rw [heap_clear enum h hg, funext hw.record] at hps
    -- one of the store and the index was emptied, so a pair of the other is left over
    split_ifs at hps with hix hst hst
    · exact hne (hix.trans hst.symm)
    · obtain ⟨val, hno, -⟩ := hps.mp hho
      cases hno
    · obtain ⟨val, hrc, hk⟩ := ((hmr idx hg).holds_iff ikey prim).mp hho
      have hem := hps.mpr ⟨val, hrc, hk⟩
      simp [MemoryIndex.Holds, replaceIndexValueStore] at hem
    · exact hne (by simp_all)

/-- One request keeps the state well formed and, exactly under its condition, the indexes
exact. -/
theorem performOperation_step (info : IDBObjectStoreInfo) (enum : Enumeration)
    (h : st.WellFormed) (hmr : st.Mirrors scr) {op} (hpr : st.Promised op) :
    (st.performOperation scr info enum op).WellFormed ∧
    (st.Safe scr info enum op → (st.performOperation scr info enum op).Mirrors scr) ∧
    (¬ st.Safe scr info enum op → ¬ (st.performOperation scr info enum op).IndexesExact scr) := by
  cases op with
  | createIndex indexInfo =>
    exact ⟨wellFormed_createIndex enum h hpr, createIndex_step h hmr hpr⟩
  | putOrAdd request => exact performPutOrAdd_step h hmr
  | deleteRange rng =>
    have hdl := deleteRange_induction (P := fun st => st.WellFormed ∧ st.Mirrors scr)
        (fun _ hst => hst.1)
        (fun _ key hst => ⟨wellFormed_deleteRecord enum hst.1 key,
          mirrors_deleteRecord scr enum hst.1 hst.2 key⟩)
        rng ⟨h, hmr⟩
    exact ⟨hdl.1, fun _ => hdl.2, fun hu => absurd trivial hu⟩
  | clear => exact ⟨(writes_clear enum h).wellFormed, clear_step h hmr⟩

theorem sound_performOperation (info : IDBObjectStoreInfo) (enum : Enumeration) (h : st.Sound)
    {op} (hpr : st.Promised op) : (st.performOperation scr info enum op).Sound := by
  cases op with
  | createIndex indexInfo =>
    refine ⟨wellFormed_createIndex enum h.wellFormed hpr, ?_⟩
    simp only [performOperation]
    by_cases hal : (st.store.writeTransaction && st.transaction.isVersionChange) = true
    swap
    · rw [createIndex, if_neg hal]
      exact h.lists
    by_cases hcl : Clashes scr indexInfo (reached scr (st.records enum))
    · rw [createIndex_of_clashes enum hcl]
      exact h.lists
    rw [Bool.and_eq_true] at hal
    have hcr := creates_createIndex enum h.wellFormed hpr hal.1 hal.2 hcl
    intro idx hi
    rcases (hcr.registered_iff idx).mp hi with hd | rfl
    · rw [hcr.heap idx hd]
      exact h.lists idx hd
    · exact hcr.consistent.toLists
  | putOrAdd request =>
    simp only [performOperation]
    cases hch : checkPut scr info st request with
    | error error =>
      rw [performPutOrAdd_of_checkPut_error hch]
      exact h
    | ok checked =>
      obtain ⟨counted, hc, hl, -⟩ := performPutOrAdd_of_checkPut enum hch
      refine hl.sound (sound_addRecord (sound_deleteRecord enum (hc.sound h) _) ?_)
      rw [record_deleteRecord, if_pos rfl]
  | deleteRange rng =>
    exact deleteRange_induction (fun _ hst => Sound.wellFormed hst)
      (fun _ key hst => sound_deleteRecord enum hst key) rng h
  | clear =>
    have hw := writes_clear enum h.wellFormed
    refine ⟨hw.wellFormed, fun idx hi => ?_⟩
    have hg := hw.schema.registered_iff.mp hi
    simp only [performOperation]
    rw [heap_clear enum h.wellFormed hg]
    split
    · exact h.lists idx hg
    · exact (st.heap idx).consistent_emptied.toLists

/-- The state after a run of requests. -/
def performOperations (script : Script Key Value) (info : IDBObjectStoreInfo)
    (state : ObjectStoreState Key Value) (steps : List (Enumeration × StoreOperation Key Value)) :
    ObjectStoreState Key Value :=
  steps.foldl (fun state step => state.performOperation script info step.1 step.2) state

/-- A condition on the state before each request of a run. -/
def BeforeEach (script : Script Key Value) (info : IDBObjectStoreInfo)
    (P : ObjectStoreState Key Value → Enumeration → StoreOperation Key Value → Prop) :
    ObjectStoreState Key Value → List (Enumeration × StoreOperation Key Value) → Prop
  | _, [] => True
  | state, (enum, operation) :: rest =>
    P state enum operation ∧
      BeforeEach script info P (state.performOperation script info enum operation) rest

/-- No run of requests leads out of the sound states. -/
theorem sound_performOperations {info : IDBObjectStoreInfo} (h : st.Sound)
    {steps : List (Enumeration × StoreOperation Key Value)}
    (hpr : BeforeEach scr info (fun st _ op => st.Promised op) st steps) :
    (st.performOperations scr info steps).Sound := by
  induction steps generalizing st with
  | nil => exact h
  | cons step rest ih => exact ih (sound_performOperation info step.1 h hpr.1) hpr.2

/-- The indexes are exact at the start of a run and after each of its requests. -/
def AlwaysExact (script : Script Key Value) (info : IDBObjectStoreInfo) :
    ObjectStoreState Key Value → List (Enumeration × StoreOperation Key Value) → Prop
  | state, [] => state.IndexesExact script
  | state, (enum, operation) :: rest =>
    state.IndexesExact script ∧
      AlwaysExact script info (state.performOperation script info enum operation) rest

theorem alwaysExact_iff_of_mirrors (info : IDBObjectStoreInfo) (h : st.WellFormed)
    (hmr : st.Mirrors scr) (steps : List (Enumeration × StoreOperation Key Value))
    (hpr : BeforeEach scr info (fun st _ op => st.Promised op) st steps) :
    AlwaysExact scr info st steps ↔
      BeforeEach scr info (fun st enum op =>
        st.Safe scr info enum op) st steps := by
  have hex : st.IndexesExact scr := fun idx hi =>
    holdsExactly_of_mirrors (hmr idx hi)
  induction steps generalizing st with
  | nil => exact iff_of_true hex trivial
  | cons step rest ih =>
    obtain ⟨enum, op⟩ := step
    obtain ⟨hf, hr⟩ := hpr
    obtain ⟨hwf, hsf, hu⟩ :=
      performOperation_step info enum h hmr hf
    simp only [AlwaysExact, hex, true_and]
    by_cases hcd : st.Safe scr info enum op
    · have hnx := hsf hcd
      have hif := ih hwf hnx hr fun idx hi =>
        holdsExactly_of_mirrors (hnx idx hi)
      exact hif.trans (and_iff_right hcd).symm
    · refine iff_of_false (fun haw => hu hcd ?_) fun hall => hcd hall.1
      cases rest with
      | nil => exact haw
      | cons step rest => exact haw.1

/-- A newly created store has no indexes. -/
theorem mirrors_of_new (scr : Script Key Value) {storeInfo : IDBObjectStoreInfo}
    (hnw : st.store = { MemoryObjectStore.create storeInfo with writeTransaction := true }) :
    st.WellFormed ∧ st.Mirrors scr := by
  constructor
  · constructor <;> simp [hnw, MemoryObjectStore.create]
  · rintro idx ⟨name, hnm⟩
    rw [hnw] at hnm
    exact absurd hnm (by simp [MemoryObjectStore.create])

/-- From a newly created store on, the indexes hold exactly what the records yield after every
request of a run if and only if each request meets its condition: no put is refused behind an
index that has taken a key of it, no index is populated past a record without a value, and a
clear empties the indexes together with the store. -/
theorem alwaysExact_iff (script : Script Key Value) (info storeInfo : IDBObjectStoreInfo)
    (state : ObjectStoreState Key Value)
    (hnew : state.store = { MemoryObjectStore.create storeInfo with writeTransaction := true })
    (steps : List (Enumeration × StoreOperation Key Value))
    (hpromised : BeforeEach script info (fun state _ operation => state.Promised operation)
      state steps) :
    AlwaysExact script info state steps ↔
      BeforeEach script info (fun state enum operation =>
        state.Safe script info enum operation) state steps := by
  obtain ⟨hwell, hmirrors⟩ := mirrors_of_new script hnew
  exact alwaysExact_iff_of_mirrors info hwell hmirrors steps hpromised

/-- Tables visited from the newest entry to the oldest. -/
def newestFirst : Enumeration := ⟨fun items => items, fun items => List.Perm.refl items⟩

/-- Every value yields the index key 10 for the index `kind` and 20 for any other. -/
def kindScript : Script Nat Unit where
  isUndefinedOrNull _ := false
  createKeyPathArray info _ := if info.name = "kind" then [10] else [20]
  injectIDBKeyIntoScriptValue _ _ value := .ok value

def kindStoreInfo : IDBObjectStoreInfo := ⟨1, "items", .null, false, 0, ∅⟩

def kindIndexInfo : IDBIndexInfo := ⟨2, 1, "kind", .string "kind", false, false⟩

def serialIndexInfo : IDBIndexInfo := ⟨1, 1, "serial", .string "serial", true, false⟩

/-- A store without records and indexes in a version change transaction. -/
def kindStore : ObjectStoreState Nat Unit where
  address := 0
  store := { MemoryObjectStore.create kindStoreInfo with writeTransaction := true }
  heap := fun _ => .create kindIndexInfo 0
  nextIndex := 0
  transaction := ⟨true, none, false, [0], [], [], [], ∅, ∅, ∅, ∅, ∅, ∅, ∅⟩

theorem sound_kindStore : kindStore.Sound := by
  obtain ⟨hwf, hmr⟩ := mirrors_of_new kindScript (rfl : kindStore.store = _)
  exact hmr.sound hwf

/-- Put a record, replacing the one with the same key. -/
def kindRequest (key : Nat) : PutRequest Nat Unit :=
  ⟨some key, some (), .overwrite, fun _ _ => rfl⟩

def putKind (key : Nat) : StoreOperation Nat Unit :=
  .putOrAdd (kindRequest key)

/-- An index, a record and a clear: nothing is refused, the new index has no records to miss,
and the clear is the first one. -/
theorem alwaysExact_kindStore :
    AlwaysExact kindScript kindStoreInfo kindStore
      [(newestFirst, .createIndex kindIndexInfo), (newestFirst, putKind 1),
        (newestFirst, .clear)] := by
  refine (alwaysExact_iff kindScript kindStoreInfo kindStoreInfo kindStore rfl
    [(newestFirst, .createIndex kindIndexInfo), (newestFirst, putKind 1), (newestFirst, .clear)]
    ⟨⟨rfl, rfl⟩, trivial, trivial, trivial⟩).mpr
    ⟨fun _ _ _ => ?_, ?_, fun index _ => .inl rfl, trivial⟩
  · rintro ⟨record, hrec, -⟩
    exact absurd hrec List.not_mem_nil
  · rintro key value generated - ⟨earlier, index, rest, hsplit, -, ⟨huniq, -⟩, -⟩
    have hmem : index ∈ newestFirst.values (kindStore.performOperation kindScript kindStoreInfo
        newestFirst (.createIndex kindIndexInfo)).store.indexesByName := by
      rw [hsplit]
      exact List.mem_append_right _ List.mem_cons_self
    obtain rfl := List.mem_singleton.mp hmem
    cases huniq

/-- A second record is refused by the unique index after the other one has taken it: taking it
back drops the entry of the first record and leaves its key behind. -/
theorem not_alwaysExact_kindStore :
    ¬ AlwaysExact kindScript kindStoreInfo kindStore
      [(newestFirst, .createIndex serialIndexInfo), (newestFirst, .createIndex kindIndexInfo),
        (newestFirst, putKind 1), (newestFirst, putKind 2)] := by
  rintro ⟨-, -, -, -, hexact⟩
  have hlast := hexact 1 ⟨"kind", rfl⟩
  obtain ⟨entry, hent, -⟩ := (hlast.orderedKeys 10).mp (by decide)
  exact absurd (Option.isSome_of_eq_some hent) (by decide)

end ObjectStoreState

end QtWebKit.IndexedDB
