import QtWebKit.IndexedDB.StoreUndo

/-! # The abort of one object store

An abort puts the saved maps back and then replays the recorded values through the
ordinary delete and add. The replay ends in the records from before the
transaction, provided that no value it puts back meets a value that has still to
be replaced in a unique index. -/

namespace QtWebKit.IndexedDB

open Lib List Option

variable {Key Value : Type} [IDBKeyData Key] {scr : Script Key Value}

namespace MemoryBackingStoreTransaction

/-- The entries of an index once what a clear had saved of them is back. -/
def restoredIndex (transaction : MemoryBackingStoreTransaction Key Value)
    (heap : Address → MemoryIndex Key) (index : Address) : MemoryIndex Key :=
  match transaction.clearedIndexValueStores.lookup index with
  | none => heap index
  | some records => (heap index).replaceIndexValueStore records

end MemoryBackingStoreTransaction

namespace ObjectStoreState

open MemoryBackingStoreTransaction

variable {pre now start st : ObjectStoreState Key Value}

/-- A store of an aborting transaction, with the saved index entries already put back. -/
structure Restorable (script : Script Key Value) (before state : ObjectStoreState Key Value) : Prop
    extends RecordsUndo before state where
  isAborting : state.transaction.isAborting = true
  mirrors : ∀ index, state.Registered index →
    (state.heap index).Mirrors script state.undoBase

/-- Two recorded keys stand in each other's way: a unique index has a key both of the value to
be put back for the one and of the record that the other starts from. -/
def ReplayConflicts (script : Script Key Value) (state : ObjectStoreState Key Value) : Prop :=
  ∃ index, state.Registered index ∧ (state.heap index).info.unique = true ∧
    ∃ key value key' value', key' ≠ key ∧ state.original key = some value ∧
      (state.original key').isSome = true ∧ state.undoBase key' = some value' ∧
      ∃ indexKey ∈ script.indexKeys (state.heap index).info value,
        indexKey ∈ script.indexKeys (state.heap index).info value'

/-- The replay with the entries that are left. -/
structure Replaying (script : Script Key Value) (before start state : ObjectStoreState Key Value)
    (rest : List (Key × Option Value)) : Prop where
  transaction : state.transaction = start.transaction
  schema : KeepsSchema start state
  wellFormed : state.WellFormed
  mirrors : state.Mirrors script
  keyGeneratorValue : state.store.keyGeneratorValue = before.store.keyGeneratorValue
  record : ∀ key, state.store.record key = before.store.record key ∨
    state.store.record key = start.undoBase key ∧ key ∈ rest.map Prod.fst

section

variable {rest : List (Key × Option Value)} {ent : Key × Option Value}

section

variable (h : Replaying scr pre start st (ent :: rest))
  (hst : Restorable scr pre start)
  (hb : pre.Mirrors scr)
  (hc : ¬ start.ReplayConflicts scr)
  (hen : ∀ ent' ∈ ent :: rest, start.original ent'.1 = some ent'.2)
include h hst hb hc hen

/-- No index refuses a value that is put back. -/
theorem Replaying.not_refusesPut {idx} (hi : start.Registered idx) :
    ¬ st.RefusesPut scr ent.1 ent.2 idx := by
  rintro ⟨hu, ikey, hm, prim, hp, hh⟩
  have he := hen ent mem_cons_self
  have hio := hst.indexInfo idx (hst.registered hi)
  have hol := hb idx (hst.registered hi)
  rw [(h.mirrors idx (h.schema.registered_iff.mpr hi)).holds_iff, h.schema.indexInfo] at hh
  rw [h.schema.indexInfo] at hu hm
  obtain ⟨val, hv, hm'⟩ := hh
  rcases h.record prim with hrc | ⟨hrc, hk⟩
  · -- both records are from before, where the index had room for both
    rw [hv] at hrc
    rw [hio] at hu hm hm'
    have hf := (hol.holds_iff ikey prim).mpr ⟨val, hrc.symm, hm'⟩
    have hs := (hol.holds_iff ikey ent.1).mpr ⟨ent.2, hst.original _ _ he, hm⟩
    exact hp (hol.consistent.eq_of_holds hu hf hs)
  · obtain ⟨other, ho, rfl⟩ := mem_map.mp hk
    exact hc ⟨idx, hi, hu, ent.1, ent.2, other.1, val, hp, he, isSome_of_eq_some (hen other
      ho), hrc.symm.trans hv, ikey, hm, hm'⟩

/-- One recorded value is put back. -/
theorem Replaying.restoreRecord (enum : Enumeration) :
    Replaying scr pre start (st.restoreRecord scr enum ent) rest := by
  have hd : Writes st (st.deleteRecord enum ent.1) _ :=
    writes_deleteRecord h.wellFormed ent.1
  have htr : (st.deleteRecord enum ent.1).transaction = start.transaction := by
    rw [transaction_deleteRecord, h.transaction, recordValueChanged_of_isAborting hst.isAborting]
  obtain ⟨-, hat, had, hmr⟩ := addRecord_accepted hd.wellFormed
    (mirrors_deleteRecord scr enum h.wellFormed h.mirrors ent.1)
    (by rw [hd.record, if_pos rfl])
    (fun idx hi => by
      have hg := hd.schema.registered_iff.mp hi
      rw [rejects_deleteRecord_iff h.wellFormed h.mirrors hg]
      exact h.not_refusesPut hst hb hc hen (h.schema.registered_iff.mp hg)) enum
  refine ⟨hat.trans htr, (h.schema.trans hd.schema).trans had.schema, had.wellFormed,
    hmr, ?_, fun key => ?_⟩
  · exact (had.keyGeneratorValue.trans hd.keyGeneratorValue).trans h.keyGeneratorValue
  · rw [ObjectStoreState.restoreRecord, had.record]
    by_cases hk : key = ent.1
    · left
      rw [if_pos hk, hk]
      exact (hst.original _ _ (hen ent mem_cons_self)).symm
    · rw [if_neg hk, hd.record, if_neg hk]
      rcases h.record key with hrc | ⟨hrc, hm⟩
      · exact .inl hrc
      · refine .inr ⟨hrc, ?_⟩
        rw [map_cons, mem_cons] at hm
        exact hm.resolve_left hk

end

theorem Replaying.foldl (h : Replaying scr pre start st rest)
    (hst : Restorable scr pre start) (hb : pre.Mirrors scr) (hc : ¬ start.ReplayConflicts scr)
    (hen : ∀ ent' ∈ rest, start.original ent'.1 = some ent'.2) (enum : Enumeration) :
    Replaying scr pre start
      (rest.foldl (fun st ent => st.restoreRecord scr enum ent) st) [] := by
  induction rest generalizing st with
  | nil => exact h
  | cons ent rest ih =>
    exact ih (h.restoreRecord hst hb hc hen enum)
      (forall_mem_cons.mp hen).2

end

/-- The parts of a state that the abort of a store reads. -/
structure SameStart (before now state : ObjectStoreState Key Value) : Prop where
  address : state.address = now.address
  store : state.store = now.store
  nextIndex : now.nextIndex ≤ state.nextIndex
  indexInfo : ∀ index, before.Registered index → (state.heap index).info = (now.heap index).info
  indexStore : ∀ index, before.Registered index →
    (state.heap index).objectStore = (now.heap index).objectStore
  originalKeyGenerators : state.transaction.originalKeyGenerators.lookup now.address =
    now.transaction.originalKeyGenerators.lookup now.address
  originalValues : state.transaction.originalValues.lookup now.address =
    now.transaction.originalValues.lookup now.address
  clearedKeyValueMaps : state.transaction.clearedKeyValueMaps.lookup now.address =
    now.transaction.clearedKeyValueMaps.lookup now.address
  clearedOrderedKeys : state.transaction.clearedOrderedKeys.lookup now.address =
    now.transaction.clearedOrderedKeys.lookup now.address

namespace SameStart

variable (h : SameStart pre now st)
include h

theorem original : st.original = now.original := by
  funext key
  rw [ObjectStoreState.original, ObjectStoreState.original, h.address, h.originalValues]

omit [IDBKeyData Key] in
theorem saved : st.saved = now.saved := by
  rw [ObjectStoreState.saved, ObjectStoreState.saved, h.address, h.clearedKeyValueMaps]

theorem undoBase : st.undoBase = now.undoBase := by
  rw [ObjectStoreState.undoBase, ObjectStoreState.undoBase, h.saved, h.store]

omit [IDBKeyData Key] in
theorem registered_iff {idx} : st.Registered idx ↔ now.Registered idx := by
  rw [Registered, Registered, h.store]

theorem wellFormed (hn : now.WellFormed)
    (hg : ∀ idx, now.Registered idx → pre.Registered idx) : st.WellFormed :=
  hn.frame h.store h.nextIndex fun idx hi => h.indexInfo idx (hg idx hi)

theorem replayConflicts_iff (hg : ∀ idx, now.Registered idx → pre.Registered idx) :
    st.ReplayConflicts scr ↔ now.ReplayConflicts scr := by
  rw [ReplayConflicts, h.original, h.undoBase]
  refine exists_congr fun idx => ?_
  rw [h.registered_iff]
  refine and_congr_right fun hi => ?_
  rw [h.indexInfo idx (hg idx hi)]

end SameStart

theorem RecordsUndo.sameStart (h : RecordsUndo pre now) (hsm : SameStart pre now st) :
    RecordsUndo pre st where
  address := hsm.address.trans h.address
  wellFormed := hsm.wellFormed h.wellFormed fun _ => h.registered
  indexesByName := by
    rw [hsm.store]
    exact h.indexesByName
  indexInfo idx hi := by rw [hsm.indexInfo idx hi, h.indexInfo idx hi]
  indexStore idx hi := by
    rw [hsm.indexStore idx hi, h.indexStore idx hi, hsm.address]
  keyGeneratorValue := by rw [hsm.address, hsm.originalKeyGenerators, h.keyGeneratorValue]
  original := by
    rw [hsm.original]
    exact h.original
  base := by
    rw [hsm.original, hsm.undoBase]
    exact h.base
  cleared := by
    rw [hsm.saved, hsm.address, hsm.clearedOrderedKeys]
    exact h.cleared

/-- The store of an abort, with the saved index entries put back. -/
theorem Undoable.restorable (h : Undoable scr pre now) (hsm : SameStart pre now st)
    (hab : st.transaction.isAborting = true) (hhp : ∀ idx, pre.Registered idx →
      st.heap idx = now.transaction.restoredIndex now.heap idx) : Restorable scr pre st := by
  refine ⟨h.toRecordsUndo.sameStart hsm, hab, fun idx hi => ?_⟩
  have hn := hsm.registered_iff.mp hi
  rw [hhp idx (h.registered hn), hsm.undoBase, restoredIndex, undoBase]
  cases hsv : now.saved with
  | none =>
    rw [(h.mirrors hsv).2 idx (h.registered hn)]
    exact (h.mirrors hsv).1 idx hn
  | some saved =>
    obtain ⟨map, rfl, -⟩ := h.cleared saved hsv
    obtain ⟨recs, hrs, hmr⟩ := h.clearedMirrors map hsv idx hn
    rw [hrs]
    exact hmr

/-- The abort of another store in between. -/
theorem Restorable.frame (h : Restorable scr pre now) (hsm : SameStart pre now st)
    (hab : st.transaction.isAborting = now.transaction.isAborting)
    (hhp : ∀ idx, pre.Registered idx → st.heap idx = now.heap idx) : Restorable scr pre st := by
  refine ⟨h.toRecordsUndo.sameStart hsm, hab.trans h.isAborting, fun idx hi => ?_⟩
  have hn := hsm.registered_iff.mp hi
  rw [hhp idx (h.registered hn), hsm.undoBase]
  exact h.mirrors idx hn

/-- A store that holds the records the replay starts from. -/
theorem Restorable.replaying_of_store (h : Restorable scr pre st) {rest : List (Key × Option Value)}
    (hr : ∀ key, (st.original key).isSome = true → key ∈ rest.map Prod.fst)
    {store : MemoryObjectStore Key Value} (hsc : KeepsSchema st { st with store := store })
    (hks : store.orderedKeys = store.keyValueStore.map fun map => map.keys.toFinset)
    (hgn : store.keyGeneratorValue = pre.store.keyGeneratorValue)
    (hrc : store.record = st.undoBase) :
    Replaying scr pre st { st with store := store } rest := by
  refine ⟨rfl, hsc, hsc.wellFormed h.wellFormed hks, fun idx hi => ?_, hgn, fun key => ?_⟩
  · rw [hrc]
    exact h.mirrors idx (hsc.registered_iff.mp hi)
  · rw [hrc]
    cases hor : st.original key with
    | none => exact .inl (h.base key hor)
    | some val => exact .inr ⟨rfl, hr key (isSome_of_eq_some hor)⟩

/-- The generator and the saved map are back, every recorded value is still to come. -/
theorem Restorable.replaying (h : Restorable scr pre st) {rest : List (Key × Option Value)}
    (hr : ∀ key, (st.original key).isSome = true → key ∈ rest.map Prod.fst) :
    Replaying scr pre st
      (st.setKeyGeneratorValue ((st.transaction.originalKeyGenerators.lookup st.address).getD
          0)).replaceKeyValueStore rest := by
  rw [h.keyGeneratorValue, replaceKeyValueStore]
  cases hsv : st.saved with
  | none =>
    have hj : ((st.setKeyGeneratorValue
        pre.store.keyGeneratorValue).transaction.clearedKeyValueMaps.lookup
        st.address).join = none := congrArg join hsv
    simp only [setKeyGeneratorValue] at hj ⊢
    rw [hj]
    refine h.replaying_of_store hr ⟨rfl, rfl, rfl, rfl, rfl, rfl, fun _ => rfl, fun _ => rfl,
      fun _ _ => rfl⟩ h.wellFormed.orderedKeys rfl ?_
    rw [undoBase, hsv]
    rfl
  | some saved =>
    obtain ⟨map, rfl, hks⟩ := h.cleared saved hsv
    have hj : ((st.setKeyGeneratorValue
        pre.store.keyGeneratorValue).transaction.clearedKeyValueMaps.lookup
        st.address).join = some map := congrArg join hsv
    simp only [setKeyGeneratorValue] at hj ⊢
    rw [hj]
    refine h.replaying_of_store hr ⟨rfl, rfl, rfl, rfl, rfl, rfl, fun _ => rfl, fun _ => rfl,
      fun _ _ => rfl⟩ ?_ rfl ?_
    · exact congrArg join hks
    · rw [undoBase, hsv]
      rfl

/-- The state of a store after its part of the abort. -/
structure Settled (script : Script Key Value) (before now : ObjectStoreState Key Value) : Prop
    extends KeepsIndexes before now where
  mirrors : now.Mirrors script
  keyGeneratorValue : now.store.keyGeneratorValue = before.store.keyGeneratorValue
  record : now.store.record = before.store.record

theorem Replaying.settled (h : Replaying scr pre start st [])
    (hst : Restorable scr pre start) : Settled scr pre st :=
  ⟨hst.schema h.schema h.wellFormed, h.mirrors, h.keyGeneratorValue,
    funext fun key => (h.record key).resolve_right (by simp)⟩

/-- What happens to other stores afterwards. -/
theorem Settled.frame (h : Settled scr pre now) (ha : st.address = now.address)
    (hso : st.store = now.store) (hnx : now.nextIndex ≤ st.nextIndex)
    (hhp : ∀ idx, pre.Registered idx → st.heap idx = now.heap idx) : Settled scr pre st where
  address := ha.trans h.address
  wellFormed := h.wellFormed.frame hso hnx fun idx hi => by
    rw [hhp idx (h.registered hi)]
  indexesByName := by
    rw [hso]
    exact h.indexesByName
  indexInfo idx hi := by rw [hhp idx hi, h.indexInfo idx hi]
  indexStore idx hi := by rw [hhp idx hi, h.indexStore idx hi, ha]
  mirrors idx hi := by
    rw [Registered, hso] at hi
    rw [hhp idx (h.registered hi), hso]
    exact h.mirrors idx hi
  keyGeneratorValue := by rw [hso, h.keyGeneratorValue]
  record := by rw [hso, h.record]

/-- Without a conflict, every record is back and every registered index mirrors the records. -/
theorem Restorable.restoreRecords (h : Restorable scr pre st)
    (hb : pre.Mirrors scr) (hc : ¬ st.ReplayConflicts scr) (enum : Enumeration) :
    Settled scr pre (st.restoreRecords scr enum) := by
  rw [ObjectStoreState.restoreRecords]
  cases hvl : st.transaction.originalValues.lookup st.address with
  | none =>
    have hor (key) : st.original key = none := by
      rw [ObjectStoreState.original, hvl, bind_none]
    exact (h.replaying fun key hk => by simp [hor] at hk).settled h
  | some map =>
    have hor (key) : st.original key = map.lookup key := by
      rw [ObjectStoreState.original, hvl, bind_some]
    have hen : ∀ ent ∈ enum.entries map, st.original ent.1 = some ent.2 := by
      intro ent he
      rw [hor]
      exact enum.mem_entries.mp he
    refine ((h.replaying fun key hk => ?_).foldl h hb hc hen enum).settled h
    obtain ⟨val, hv⟩ := isSome_iff_exists.mp hk
    rw [hor] at hv
    exact mem_map.mpr ⟨(key, val), enum.mem_entries.mpr hv, rfl⟩

end ObjectStoreState

end QtWebKit.IndexedDB
