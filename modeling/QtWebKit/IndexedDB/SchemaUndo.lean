import QtWebKit.IndexedDB.ReadWriteAbort
import Mathlib.Data.List.TakeWhile

/-! # Deleting indexes and putting them back

A deleted index leaves both tables of its store and the description, and is
remembered under its name. The abort registers it again and populates it from the
restored records, which succeeds if none of them is undefined or null. -/

namespace QtWebKit.IndexedDB

open Lib Option MemoryIndex Table

variable {Key Value : Type} [IDBKeyData Key] {scr : Script Key Value}

namespace ObjectStoreState

variable {pre now after st : ObjectStoreState Key Value}

/-- The description of a store lists the indexes it knows by identifier. -/
def Described (state : ObjectStoreState Key Value) : Prop :=
  ∀ identifier, state.store.info.indexMap.lookup identifier =
    (state.store.indexesByIdentifier.lookup identifier).map fun index => (state.heap index).info

theorem Described.hasIndex_iff (h : st.Described) (hwf : st.WellFormed) {name} :
    st.store.info.hasIndex name = true ↔
      ∃ idx, st.store.indexesByName.lookup name = some idx := by
  rw [IDBObjectStoreInfo.hasIndex_iff]
  constructor
  · rintro ⟨ident, info, hlk, rfl⟩
    rw [h, map_eq_some_iff] at hlk
    obtain ⟨idx, hi, rfl⟩ := hlk
    exact ⟨idx, (hwf.byIdentifier ident idx hi).2⟩
  · rintro ⟨idx, hi⟩
    obtain ⟨-, hnm, hid⟩ := hwf.byName name idx hi
    refine ⟨(st.heap idx).info.identifier, (st.heap idx).info, ?_, hnm⟩
    rw [h, hid, map_some]

omit [IDBKeyData Key] in
theorem Described.frame (h : now.Described)
    (hmp : after.store.info.indexMap = now.store.info.indexMap)
    (hix : after.store.indexesByIdentifier = now.store.indexesByIdentifier)
    (hhp : ∀ ident idx, now.store.indexesByIdentifier.lookup ident = some idx →
      (after.heap idx).info = (now.heap idx).info) : after.Described := by
  intro ident
  rw [hmp, hix, h]
  cases hi : now.store.indexesByIdentifier.lookup ident with
  | none => rfl
  | some idx => rw [map_some, map_some, hhp ident idx hi]

/-- What deleting a registered index does to its store. -/
structure DeletesIndex (before after : ObjectStoreState Key Value) (index : Address) : Prop where
  registered : before.store.indexesByName.lookup (before.heap index).info.name = some index
  address : after.address = before.address
  nextIndex : after.nextIndex = before.nextIndex
  heap : after.heap = before.heap
  keyGeneratorValue : after.store.keyGeneratorValue = before.store.keyGeneratorValue
  keyValueStore : after.store.keyValueStore = before.store.keyValueStore
  orderedKeys : after.store.orderedKeys = before.store.orderedKeys
  indexesByName : after.store.indexesByName =
    before.store.indexesByName.erase (before.heap index).info.name
  indexesByIdentifier : after.store.indexesByIdentifier =
    before.store.indexesByIdentifier.erase (before.heap index).info.identifier
  indexMap : after.store.info.indexMap =
    before.store.info.indexMap.erase (before.heap index).info.identifier
  transaction : after.transaction = before.transaction.indexDeleted index
    (before.heap index).info.name before.address before.store.info.name

/-- A request to delete an index deletes a registered one or does nothing. -/
theorem deleteIndex_cases (h : st.WellFormed) (idxId : Nat) :
    (st.deleteIndex idxId).1 = st ∨
      ∃ idx, st.store.indexesByIdentifier.lookup idxId = some idx ∧
        DeletesIndex st (st.deleteIndex idxId).1 idx := by
  rw [deleteIndex]
  split
  case isFalse => exact .inl rfl
  case isTrue =>
    split
    · exact .inl rfl
    case h_2 idx hid =>
      obtain ⟨hid', hnm⟩ := h.byIdentifier idxId idx hid
      right
      refine ⟨idx, hid, ?_⟩
      simp only [hnm]
      exact ⟨hnm, rfl, rfl, rfl, rfl, rfl, rfl, rfl, by rw [hid'], by rw [hid']; rfl, rfl⟩

namespace DeletesIndex

variable {idx : Address}

variable (h : DeletesIndex pre after idx)
include h

section

omit [IDBKeyData Key]

/-- The names of a store that are left are those of other indexes. -/
theorem lookup_indexesByName (name : String) :
    after.store.indexesByName.lookup name =
      if name = (pre.heap idx).info.name then none
      else pre.store.indexesByName.lookup name := by
  rw [h.indexesByName, lookup_erase_eq]

theorem lookup_indexesByIdentifier (ident : Nat) :
    after.store.indexesByIdentifier.lookup ident =
      if ident = (pre.heap idx).info.identifier then none
      else pre.store.indexesByIdentifier.lookup ident := by
  rw [h.indexesByIdentifier, lookup_erase_eq]

/-- An index that is still there is not the deleted one. -/
theorem lookup_of_lookup {name oth} (hnm : after.store.indexesByName.lookup name = some oth) :
    name ≠ (pre.heap idx).info.name ∧
      pre.store.indexesByName.lookup name = some oth := by
  rw [h.lookup_indexesByName] at hnm
  split at hnm
  · cases hnm
  · exact ⟨‹_›, hnm⟩

end

theorem record : after.store.record = pre.store.record := by
  funext key
  rw [MemoryObjectStore.record, MemoryObjectStore.record, h.keyValueStore]

theorem wellFormed (hb : pre.WellFormed) : after.WellFormed := by
  refine ⟨fun name oth hnm => ?_, fun ident oth hid => ?_, ?_⟩
  · obtain ⟨hne, hnm⟩ := h.lookup_of_lookup hnm
    obtain ⟨hlt, hnm', hid⟩ := hb.byName name oth hnm
    rw [h.nextIndex, h.heap, h.lookup_indexesByIdentifier]
    refine ⟨hlt, hnm', ?_⟩
    rw [if_neg, hid]
    intro heq
    rw [heq, (hb.byName _ idx h.registered).2.2] at hid
    exact hne (by rw [some.inj hid, hnm'])
  · rw [h.lookup_indexesByIdentifier] at hid
    split at hid
    · cases hid
    case isFalse hne =>
      obtain ⟨hid', hnm⟩ := hb.byIdentifier ident oth hid
      rw [h.heap, h.lookup_indexesByName]
      refine ⟨hid', ?_⟩
      rw [if_neg, hnm]
      intro heq
      rw [heq, h.registered] at hnm
      exact hne (by rw [some.inj hnm, hid'])
  · rw [h.orderedKeys, h.keyValueStore, hb.orderedKeys]

omit [IDBKeyData Key]

theorem described (hb : pre.Described) : after.Described := by
  intro ident
  rw [h.indexMap, h.lookup_indexesByIdentifier, h.heap, lookup_erase_eq, hb]
  split <;> rfl

/-- The transaction remembers the index, if it has forgotten no store of that name and no index
of that name. -/
theorem lookup_deletedIndexes
    (hss : ∀ oth, pre.transaction.deletedObjectStores.lookup pre.store.info.name =
      some oth → oth = pre.address)
    (hno : pre.transaction.deletedIndexes.lookup (pre.heap idx).info.name = none) (name : String) :
    after.transaction.deletedIndexes.lookup name =
      if name = (pre.heap idx).info.name then some idx
      else pre.transaction.deletedIndexes.lookup name := by
  rw [h.transaction, (indexDeleted_spec _ _ _ _ _).2.2.2 hss hno, lookup_insert_eq]

end DeletesIndex

/-- Nothing is lost with an index that can be put back. -/
theorem Undoable.deletesIndex (h : Undoable scr pre now) {idx}
    (hdl : DeletesIndex now after idx) : Undoable scr pre after := by
  obtain ⟨-, hun, -⟩ := indexDeleted_spec now.transaction idx
    (now.heap idx).info.name now.address now.store.info.name
  rw [← hdl.transaction] at hun
  exact h.keepsRecord hdl.address (hdl.wellFormed h.wellFormed)
    (fun name oth hnm => (hdl.lookup_of_lookup hnm).2) hdl.record
    (fun idx _ => by rw [hdl.heap]) (hun now.address pre.Registered)

/-- Some indexes of a store are gone and remembered, the others are as they were. -/
structure Strips (now after : ObjectStoreState Key Value) : Prop where
  confined : Confined now after
  wellFormed : after.WellFormed
  undoable : ∀ (script : Script Key Value) before, Undoable script before now →
    Undoable script before after
  described : now.Described → after.Described
  indexesByName : ∀ name index, after.store.indexesByName.lookup name = some index →
    now.store.indexesByName.lookup name = some index
  kept : ∀ name index, now.store.indexesByName.lookup name = some index →
    after.store.indexesByName.lookup name = some index ∨
      after.transaction.deletedIndexes.lookup name = some index
  deleted : ∀ name index, after.transaction.deletedIndexes.lookup name = some index →
    now.transaction.deletedIndexes.lookup name = some index ∨
      now.store.indexesByName.lookup name = some index ∧
        after.store.indexesByName.lookup name = none

theorem Strips.refl (h : st.WellFormed) (how : st.OwnsIndexes) : Strips st st :=
  ⟨Confined.refl how, h, fun _ _ hu => hu, fun hds => hds,
    fun _ _ hnm => hnm, fun _ _ hnm => .inl hnm, fun _ _ hnm => .inl hnm⟩

theorem Strips.trans {middle} (h : Strips now middle)
    (h' : Strips middle after) : Strips now after where
  confined := h.confined.trans h'.confined
  wellFormed := h'.wellFormed
  undoable scr pre hu := h'.undoable scr pre (h.undoable scr pre hu)
  described hds := h'.described (h.described hds)
  indexesByName name idx hnm := h.indexesByName name idx (h'.indexesByName name idx hnm)
  kept name idx hnm := by
    rcases h.kept name idx hnm with hmd | hde
    · exact h'.kept name idx hmd
    · exact .inr (h'.confined.deletedIndexes name idx hde)
  deleted name idx hnm := by
    have hg (hno : middle.store.indexesByName.lookup name = none) :
        after.store.indexesByName.lookup name = none := by
      cases haf : after.store.indexesByName.lookup name with
      | none => rfl
      | some oth =>
        rw [h'.indexesByName name oth haf] at hno
        cases hno
    rcases h'.deleted name idx hnm with hmd | ⟨hmd, haf⟩
    · rcases h.deleted name idx hmd with hn | ⟨hn, hno⟩
      · exact .inl hn
      · exact .inr ⟨hn, hg hno⟩
    · exact .inr ⟨h.indexesByName name idx hmd, haf⟩

/-- No other store of the name of this one was deleted before. -/
def OnlyDeleted (state : ObjectStoreState Key Value) : Prop :=
  ∀ other, state.transaction.deletedObjectStores.lookup state.store.info.name = some other →
    other = state.address

/-- Deleting an index of whose name none was deleted before. -/
theorem strips_deleteIndex (h : st.WellFormed) (how : st.OwnsIndexes) (hss : st.OnlyDeleted) {idxId}
    (hfr : ∀ idx, st.store.indexesByIdentifier.lookup idxId = some idx →
      st.transaction.deletedIndexes.lookup (st.heap idx).info.name = none) :
    Strips st (st.deleteIndex idxId).1 := by
  have hc := confined_deleteIndex how idxId
  rcases deleteIndex_cases h idxId with hsm | ⟨idx, hid, hdl⟩
  · rw [hsm]
    exact Strips.refl h how
  have hlk := hdl.lookup_deletedIndexes hss (hfr idx hid)
  refine ⟨hc, hdl.wellFormed h, fun _ _ hu => hu.deletesIndex hdl, hdl.described, fun
    name oth hnm => (hdl.lookup_of_lookup hnm).2, fun name oth hnm => ?_, fun name oth hnm => ?_⟩
  · rw [hdl.lookup_indexesByName, hlk]
    by_cases heq : name = (st.heap idx).info.name
    · rw [if_pos heq, if_pos heq]
      rw [heq, hdl.registered] at hnm
      exact .inr hnm
    · rw [if_neg heq]
      exact .inl hnm
  · rw [hlk] at hnm
    split at hnm
    case isTrue heq =>
      obtain rfl := some.inj hnm
      rw [hdl.lookup_indexesByName, if_pos heq, heq]
      exact .inr ⟨hdl.registered, rfl⟩
    case isFalse => exact .inl hnm

/-- Deleting a list of indexes of whose names none was deleted before. -/
theorem strips_deleteIndexes (indexIdentifiers : List Nat) (h : st.WellFormed)
    (how : st.OwnsIndexes) (hss : st.OnlyDeleted)
    (hfr : ∀ name idx, st.store.indexesByName.lookup name = some idx →
      st.transaction.deletedIndexes.lookup name = none) :
    Strips st (indexIdentifiers.foldl (fun st ident => (st.deleteIndex ident).1) st) := by
  induction indexIdentifiers generalizing st with
  | nil => exact Strips.refl h how
  | cons first rest ih =>
    have hst := strips_deleteIndex h how hss fun idx hid =>
        hfr _ idx (h.byIdentifier first idx hid).2
    refine hst.trans (ih hst.wellFormed hst.confined.owns ?_ fun name idx hnm => ?_)
    · rw [OnlyDeleted, hst.confined.scope.deletedObjectStores, hst.confined.name,
        hst.confined.address]
      exact hss
    · cases hde : (st.deleteIndex first).1.transaction.deletedIndexes.lookup name with
      | none => rfl
      | some oth =>
        rcases hst.deleted name oth hde with hn | ⟨-, haf⟩
        · rw [hfr name idx (hst.indexesByName name idx hnm)] at hn
          cases hn
        · rw [hnm] at haf
          cases haf

theorem strips_deleteAllIndexes (h : st.WellFormed) (how : st.OwnsIndexes) (hss : st.OnlyDeleted)
    (hfr : ∀ name idx, st.store.indexesByName.lookup name = some idx →
      st.transaction.deletedIndexes.lookup name = none) (enum : Enumeration) :
    Strips st (st.deleteAllIndexes enum) :=
  strips_deleteIndexes _ h how hss hfr

variable {idx : Address}

/-- An index of the start that is gone can be entered into both tables. -/
theorem Settled.freshIndex (h : Settled scr pre now) (hb : pre.WellFormed)
    {name} (hi : pre.store.indexesByName.lookup name = some idx)
    (hg : now.store.indexesByName.lookup name = none) : now.FreshIndex (now.heap idx).info := by
  have hio := h.indexInfo idx ⟨name, hi⟩
  obtain ⟨-, hnm, hid⟩ := hb.byName name idx hi
  rw [hio]
  refine ⟨by rw [hnm, hg], ?_⟩
  cases hlk : now.store.indexesByIdentifier.lookup (pre.heap idx).info.identifier with
  | none => rfl
  | some oth =>
    -- an index of the same identifier would be this one, and then its name is taken
    obtain ⟨hid', hn⟩ := h.wellFormed.byIdentifier _ oth hlk
    have ho := h.indexesByName _ oth hn
    rw [h.indexInfo oth ⟨_, ho⟩] at hid' hn
    have hsm := (hb.byName _ oth ho).2.2
    rw [hid', hid] at hsm
    obtain rfl := some.inj hsm
    rw [hnm, hg] at hn
    cases hn

/-- The entries that a deleted index gets back. -/
theorem Settled.mirrors_populate (h : Settled scr pre now) (hmr : pre.Mirrors scr)
    (hi : pre.Registered idx) (hv : ∀ key val, pre.store.record key = some val →
      scr.yieldsNothing val = false) (enum : Enumeration) :
    (populateIndexWithExistingRecords scr (now.records enum)
      ((now.heap idx).replaceIndexValueStore none)).1.Mirrors scr pre.store.record := by
  have hm {key} {val} :
      (key, val) ∈ now.records enum ↔ pre.store.record key = some val := by
    rw [mem_records, h.record]
  have hrc : reached scr (now.records enum) = now.records enum := by
    rw [reached, List.takeWhile_eq_self_iff]
    rintro ⟨key, val⟩ hr
    simp [hv key val (hm.mp hr)]
  have he := (now.heap idx).consistent_emptied
  have hh (ikey prim) : ¬ ((now.heap idx).replaceIndexValueStore none).Holds ikey prim := by
    simp [MemoryIndex.Holds, replaceIndexValueStore]
  have hio : ((now.heap idx).replaceIndexValueStore none).info = (pre.heap idx).info :=
    h.indexInfo idx hi
  have hd := hmr idx hi
  have hno : (populateIndexWithExistingRecords scr (now.records enum)
      ((now.heap idx).replaceIndexValueStore none)).2 = none := by
    refine populate_eq_none he (nodup_keys_records enum) ?_ ?_
    · rintro record - ⟨-, ikey, -, prim, hpm⟩
      exact hh ikey prim hpm
    · rw [hrc, hio]
      rintro ⟨huq, ⟨key, val⟩, hf, ⟨key', val'⟩, hs, hne, ikey, hk, hk'⟩
      exact hne (hd.consistent.eq_of_holds huq ((hd.holds_iff ikey key).mpr ⟨val, hm.mp hf, hk⟩)
        ((hd.holds_iff ikey key').mpr ⟨val', hm.mp hs, hk'⟩))
  obtain ⟨hsm, -, hcn, hpr⟩ := populate_spec he hno
  refine ⟨hcn, fun ikey prim => ?_⟩
  rw [hpr, hsm, hrc]
  simp [hh, hm]

/-- The state after an index has been entered again. -/
structure Reenters (script : Script Key Value) (enum : Enumeration)
    (now after : ObjectStoreState Key Value) (index : Address) : Prop where
  address : after.address = now.address
  nextIndex : after.nextIndex = now.nextIndex
  heap : after.heap = Function.update now.heap index (populateIndexWithExistingRecords script
    (now.records enum) ((now.heap index).replaceIndexValueStore none)).1
  store : after.store = { now.store with
    info := now.store.info.addExistingIndex (now.heap index).info }.registerIndex
      (now.heap index).info index

theorem reenters_maybeRestoreDeletedIndex {enum : Enumeration}
    (h : ¬ now.store.info.hasIndex (now.heap idx).info.name = true) :
    Reenters scr enum now (now.maybeRestoreDeletedIndex scr enum idx) idx := by
  rw [ObjectStoreState.maybeRestoreDeletedIndex]
  simp only [if_neg h]
  exact ⟨rfl, rfl, rfl, rfl⟩

namespace Reenters

variable {after : ObjectStoreState Key Value} {enum : Enumeration}
  (hre : Reenters scr enum now after idx)

include hre

theorem info (oth : Address) : (after.heap oth).info = (now.heap oth).info := by
  rw [hre.heap, (update_populate_info _ _ _ oth).1]

theorem indexesByName : after.store.indexesByName =
    now.store.indexesByName.insert (now.heap idx).info.name idx := by
  rw [hre.store]
  rfl

theorem record : after.store.record = now.store.record := by
  rw [hre.store]
  rfl

theorem described (hds : now.Described) : after.Described := by
  intro ident
  simp only [hre.info]
  rw [hre.store]
  change AList.lookup ident (now.store.info.indexMap.insert _ _) =
    (AList.lookup ident (now.store.indexesByIdentifier.insert _ _)).map _
  rw [Table.lookup_insert_eq, Table.lookup_insert_eq, hds]
  split <;> rfl

variable (h : Settled scr pre now) (hb : pre.WellFormed)
  (hi : pre.store.indexesByName.lookup (now.heap idx).info.name = some idx)

include h hb hi

theorem keepsIndexes (hg : now.store.indexesByName.lookup (now.heap idx).info.name = none)
    (hnx : pre.nextIndex ≤ now.nextIndex) : KeepsIndexes pre after := by
  refine ⟨hre.address.trans h.address, ?_, fun name oth ho => ?_, fun oth ho => ?_,
    fun oth ho => ?_⟩
  · refine h.wellFormed.registerIndex (h.freshIndex hb hi hg) idx ?_ hre.nextIndex.ge ?_ ?_ ?_ ?_
      (hre.info idx) fun oth _ => hre.info oth
    · rw [hre.nextIndex]
      exact (hb.byName _ idx hi).1.trans_le hnx
    all_goals
      rw [hre.store]
      rfl
  · rw [hre.indexesByName, Table.lookup_insert_eq] at ho
    split at ho
    case isTrue hw =>
      rw [hw, ← some.inj ho]
      exact hi
    case isFalse => exact h.indexesByName name oth ho
  · rw [hre.info, h.indexInfo oth ho]
  · rw [hre.heap, (update_populate_info _ _ _ oth).2, h.indexStore oth ho, hre.address]

omit hb in
theorem mirrors (hmr : pre.Mirrors scr) (hv : ∀ key val, pre.store.record key = some val →
    scr.yieldsNothing val = false) : after.Mirrors scr := by
  rintro oth ⟨name, ho⟩
  rw [hre.heap, hre.record]
  by_cases hsm : oth = idx
  · rw [hsm, Function.update_self, h.record]
    exact h.mirrors_populate hmr ⟨_, hi⟩ hv enum
  · rw [Function.update_of_ne hsm]
    rw [hre.indexesByName, Table.lookup_insert_eq] at ho
    split at ho
    · exact absurd (some.inj ho).symm hsm
    · exact h.mirrors oth ⟨name, ho⟩

end Reenters

/-- A deleted index is registered again, with the entries of the restored records. -/
theorem Settled.maybeRestoreDeletedIndex (h : Settled scr pre now)
    (hb : pre.WellFormed) (hmr : pre.Mirrors scr) (hds : now.Described)
    {name} (hi : pre.store.indexesByName.lookup name = some idx)
    (hg : now.store.indexesByName.lookup name = none)
    (hv : ∀ key val, pre.store.record key = some val →
      scr.yieldsNothing val = false) (hnx : pre.nextIndex ≤ now.nextIndex) (enum : Enumeration) :
    Settled scr pre (now.maybeRestoreDeletedIndex scr enum idx) ∧
    (now.maybeRestoreDeletedIndex scr enum idx).Described ∧
    (now.maybeRestoreDeletedIndex scr enum idx).store.indexesByName =
      now.store.indexesByName.insert name idx := by
  obtain rfl : (now.heap idx).info.name = name := by
    rw [h.indexInfo idx ⟨name, hi⟩, (hb.byName name idx hi).2.1]
  have hre := @reenters_maybeRestoreDeletedIndex Key Value _ scr now idx enum (by
    rw [hds.hasIndex_iff h.wellFormed, hg]
    simp)
  refine ⟨⟨hre.keepsIndexes h hb hi hg hnx, hre.mirrors h hi hmr hv, ?_,
    hre.record.trans h.record⟩, hre.described hds, hre.indexesByName⟩
  rw [hre.store]
  exact h.keyGeneratorValue

end ObjectStoreState

end QtWebKit.IndexedDB
