import QtWebKit.IndexedDB.SchemaTracking

/-! # Aborting a version change

The abort first repairs the tables of stores: it takes out the created stores and
registers the deleted ones. After the replay of the records it registers the
deleted indexes and populates them. If every request of the run could be undone,
the schema, the records and the index entries are those from the start. -/

namespace QtWebKit.IndexedDB

open Lib List Table

variable {Key Value : Type} [IDBKeyData Key] {scr : Script Key Value}

namespace MemoryIDBBackingStore

open ObjectStoreState

variable {start now st : MemoryIDBBackingStore Key Value} {addr : Address}

section

/-- Some of the stores that the transaction has created are taken out. -/
structure Removed (now : MemoryIDBBackingStore Key Value) (done : List Address)
    (state : MemoryIDBBackingStore Key Value) : Prop where
  databaseInfo : state.databaseInfo = now.databaseInfo
  stores : state.stores = now.stores
  nextStore : state.nextStore = now.nextStore
  heap : state.heap = now.heap
  nextIndex : state.nextIndex = now.nextIndex
  transaction : state.transaction = now.transaction
  objectStoresByIdentifier : ∀ identifier address,
    state.objectStoresByIdentifier.lookup identifier = some address ↔
      now.objectStoresByIdentifier.lookup identifier = some address ∧ address ∉ done
  objectStoresByName : ∀ name address, state.objectStoresByName.lookup name = some address ↔
    now.objectStoresByName.lookup name = some address ∧ address ∉ done

variable {done : List Address}

omit [IDBKeyData Key]

theorem removed_nil (now : MemoryIDBBackingStore Key Value) : Removed now [] now :=
  ⟨rfl, rfl, rfl, rfl, rfl, rfl, fun _ _ => by simp, fun _ _ => by simp⟩

theorem Removed.remove (h : Removed now done st) (ht : now.TablesAgree)
    (hu : ∀ oth, now.Registered oth →
      (now.stores oth).info.identifier = (now.stores addr).info.identifier → oth = addr) :
    Removed now (done ++ [addr]) (st.removeObjectStoreForVersionChangeAbort addr) := by
  have hm {oth} : oth ∉ done ++ [addr] ↔ oth ∉ done ∧ oth ≠ addr := by
    simp
  rw [removeObjectStoreForVersionChangeAbort, h.stores]
  cases hlk : st.objectStoresByIdentifier.lookup (now.stores addr).info.identifier with
  | none =>
    -- the store was deleted before, so it is in neither table
    have hgn (hg : now.objectStoresByIdentifier.lookup
        (now.stores addr).info.identifier = some addr) : addr ∈ done := by
      by_contra hdn
      rw [(h.objectStoresByIdentifier _ addr).mpr ⟨hg, hdn⟩] at hlk
      cases hlk
    rw [if_neg (by simp)]
    refine ⟨h.databaseInfo, h.stores, h.nextStore, h.heap, h.nextIndex, h.transaction,
      fun ident oth => ?_, fun name oth => ?_⟩
    · rw [h.objectStoresByIdentifier, hm]
      refine and_congr_right fun ho => (and_iff_left_of_imp fun hdn => ?_).symm
      rintro rfl
      have hid := (ht.byIdentifier ident oth ho).1
      exact hdn (hgn (hid ▸ ho))
    · rw [h.objectStoresByName, hm]
      refine and_congr_right fun ho => (and_iff_left_of_imp fun hdn => ?_).symm
      rintro rfl
      exact hdn (hgn (ht.byName name oth ho).2.2)
  | some oth =>
    obtain ⟨ho, -⟩ := (h.objectStoresByIdentifier _ oth).mp hlk
    obtain rfl := hu oth ⟨_, ho⟩ (ht.byIdentifier _ oth ho).1
    obtain ⟨-, hnm⟩ := ht.byIdentifier _ oth ho
    rw [if_pos Option.isSome_some, unregisterObjectStore, h.stores]
    refine ⟨h.databaseInfo, rfl, h.nextStore, h.heap, h.nextIndex, h.transaction,
      fun ident addr => ?_, fun name addr => ?_⟩
    · rw [hm]
      exact lookup_erase_part h.objectStoresByIdentifier ho
        (fun _ hlk' => (ht.byIdentifier _ oth hlk').1.symm) ident addr
    · rw [hm]
      exact lookup_erase_part h.objectStoresByName hnm
        (fun _ hlk' => (ht.byName _ oth hlk').2.1.symm) name addr

theorem Removed.foldl (h : Removed now done st) (ht : now.TablesAgree) (rest : List Address)
    (hu : ∀ addr ∈ rest, ∀ oth, now.Registered oth →
      (now.stores oth).info.identifier = (now.stores addr).info.identifier → oth = addr) :
    Removed now (done ++ rest) (rest.foldl removeObjectStoreForVersionChangeAbort st) := by
  induction rest generalizing done st with
  | nil =>
    rw [append_nil]
    exact h
  | cons addr rest ih =>
    rw [forall_mem_cons] at hu
    rw [append_cons]
    exact ih (h.remove ht hu.1) hu.2

end

section

/-- Some of the deleted stores are registered again, on top of tables that agree with those from
the start. -/
structure Reregistered (start removed : MemoryIDBBackingStore Key Value) (done : List Address)
    (state : MemoryIDBBackingStore Key Value) : Prop where
  stores : state.stores = removed.stores
  heap : state.heap = removed.heap
  nextIndex : state.nextIndex = removed.nextIndex
  transaction : state.transaction = { removed.transaction with
    objectStores := state.transaction.objectStores }
  objectStores : ∀ address, address ∈ state.transaction.objectStores ↔
    address ∈ removed.transaction.objectStores ∨ address ∈ done
  nodup : state.transaction.objectStores.Nodup
  objectStoresByIdentifier : ∀ identifier address,
    state.objectStoresByIdentifier.lookup identifier = some address ↔
      start.objectStoresByIdentifier.lookup identifier = some address ∧
        (removed.Registered address ∨ address ∈ done)
  objectStoresByName : ∀ name address, state.objectStoresByName.lookup name = some address ↔
    start.objectStoresByName.lookup name = some address ∧
      (removed.Registered address ∨ address ∈ done)

variable {rem : MemoryIDBBackingStore Key Value} {done : List Address}

omit [IDBKeyData Key] in
theorem Reregistered.restore (h : Reregistered start rem done st) (hsr : start.TablesAgree)
    (hnm : start.objectStoresByName.lookup (rem.stores addr).info.name = some addr)
    (hid : start.objectStoresByIdentifier.lookup (rem.stores addr).info.identifier = some addr) :
    Reregistered start rem (done ++ [addr]) (st.restoreDeletedObjectStore addr) := by
  have hm {oth} : (rem.Registered oth ∨ oth ∈ done ++ [addr]) ↔
      (rem.Registered oth ∨ oth ∈ done) ∨ oth = addr := by
    simp [or_assoc]
  refine ⟨h.stores, h.heap, h.nextIndex, ?_, fun oth => ?_, List.Nodup.insert h.nodup,
    fun ident oth => ?_, fun name oth => ?_⟩
  · rw [restoreDeletedObjectStore, registerObjectStore]
    dsimp only
    rw [h.transaction]
  · rw [restoreDeletedObjectStore, registerObjectStore]
    dsimp only
    rw [mem_insert_iff, h.objectStores, mem_append, mem_singleton]
    tauto
  · rw [restoreDeletedObjectStore, registerObjectStore, hm, h.stores]
    exact lookup_insert_part h.objectStoresByIdentifier hid
      (fun ident' ho => (hsr.byIdentifier ident' addr ho).1.symm.trans
        (hsr.byIdentifier _ addr hid).1) ident oth
  · rw [restoreDeletedObjectStore, registerObjectStore, hm, h.stores]
    exact lookup_insert_part h.objectStoresByName hnm
      (fun name' ho => (hsr.byName name' addr ho).2.1.symm.trans
        (hsr.byName _ addr hnm).2.1) name oth

omit [IDBKeyData Key] in
theorem Reregistered.foldl (h : Reregistered start rem done st)
    (hsr : start.TablesAgree) (rest : List Address) (hr : ∀ addr ∈ rest,
      start.objectStoresByName.lookup (rem.stores addr).info.name = some addr ∧
        start.objectStoresByIdentifier.lookup (rem.stores addr).info.identifier = some addr) :
    Reregistered start rem (done ++ rest) (rest.foldl restoreDeletedObjectStore st) := by
  induction rest generalizing done st with
  | nil =>
    rw [append_nil]
    exact h
  | cons addr rest ih =>
    rw [forall_mem_cons] at hr
    rw [append_cons]
    exact ih (h.restore hsr hr.1.1 hr.1.2) hr.2

/-- The tables of stores are those from the start, and every store from the start takes part in
the rest of the abort. -/
structure StoresRestored (start now registered : MemoryIDBBackingStore Key Value) : Prop where
  databaseInfo : registered.databaseInfo = start.databaseInfo
  objectStoresByIdentifier : ∀ identifier,
    registered.objectStoresByIdentifier.lookup identifier =
      start.objectStoresByIdentifier.lookup identifier
  objectStoresByName : ∀ name,
    registered.objectStoresByName.lookup name = start.objectStoresByName.lookup name
  stores : registered.stores = now.stores
  heap : registered.heap = now.heap
  nextIndex : registered.nextIndex = now.nextIndex
  transaction : registered.transaction = { now.transaction with
    isAborting := true, objectStores := registered.transaction.objectStores }
  joined : ∀ address, start.Registered address → address ∈ registered.transaction.objectStores
  live : ∀ address ∈ registered.transaction.objectStores, Live start now address
  nodup : registered.transaction.objectStores.Nodup

/-- The transaction as the abort finds it. -/
def aborting (now : MemoryIDBBackingStore Key Value) : MemoryIDBBackingStore Key Value :=
  { now with transaction := { now.transaction with isAborting := true } }

variable {enum : Enumeration} (h : VersionChange scr start now) (hsr : Sound scr start)

include h hsr

/-- The stores that are not taken out are those from the start. -/
theorem VersionChange.not_mem_order_iff (hg : now.Registered addr) :
    addr ∉ enum.order now.transaction.versionChangeAddedObjectStores ↔ start.Registered addr := by
  rw [(enum.perm _).mem_iff]
  exact ⟨(h.tracked.live addr hg).resolve_right, h.schema.not_mem_added hsr⟩

theorem VersionChange.lookup_identifier_iff (hsc : start.Registered addr) {ident} :
    now.objectStoresByIdentifier.lookup ident = some addr ↔
      start.objectStoresByIdentifier.lookup ident = some addr ∧ now.Registered addr := by
  have hsm := h.schema.identifier addr hsc
  constructor
  · intro hn
    obtain ⟨ident', hlk⟩ := id hsc
    rw [(h.schema.tables.byIdentifier ident addr hn).1, (hsr.byIdentifier ident' addr hlk).1] at hsm
    exact ⟨hsm ▸ hlk, ident, hn⟩
  · rintro ⟨hlk, ident', hn⟩
    rw [(h.schema.tables.byIdentifier ident' addr hn).1, (hsr.byIdentifier ident addr hlk).1] at hsm
    exact hsm ▸ hn

theorem VersionChange.lookup_name_iff (hsc : start.Registered addr) {name} :
    now.objectStoresByName.lookup name = some addr ↔
      start.objectStoresByName.lookup name = some addr ∧ now.Registered addr := by
  have hsm := h.schema.name addr hsc
  constructor
  · intro hn
    obtain ⟨-, hnm, hid⟩ := h.schema.tables.byName name addr hn
    obtain ⟨ident, hlk⟩ := id hsc
    have hsn := (hsr.byIdentifier ident addr hlk).2
    rw [← hsm, hnm] at hsn
    exact ⟨hsn, _, hid⟩
  · rintro ⟨hlk, ident, hn⟩
    have hnw := (h.schema.tables.byIdentifier ident addr hn).2
    rwa [hsm, (hsr.byName name addr hlk).2.1] at hnw

/-- Once the created stores are out, the tables agree with those from the start. -/
theorem VersionChange.reregistered_nil (hrm : Removed now.aborting
      (enum.order now.transaction.versionChangeAddedObjectStores) rem) :
    (∀ addr, rem.Registered addr ↔ now.Registered addr ∧ start.Registered addr) ∧
      Reregistered start rem [] rem := by
  have hg (addr) : rem.Registered addr ↔ now.Registered addr ∧ start.Registered addr := by
    constructor
    · rintro ⟨ident, hlk⟩
      obtain ⟨hn, hnt⟩ := (hrm.objectStoresByIdentifier ident addr).mp hlk
      exact ⟨⟨ident, hn⟩, (h.not_mem_order_iff hsr ⟨ident, hn⟩).mp hnt⟩
    · rintro ⟨⟨ident, hn⟩, hsc⟩
      exact ⟨ident, (hrm.objectStoresByIdentifier ident addr).mpr
        ⟨hn, (h.not_mem_order_iff hsr ⟨ident, hn⟩).mpr hsc⟩⟩
  refine ⟨hg, rfl, rfl, rfl, rfl, by simp, by rw [hrm.transaction]; exact h.tracked.nodup,
    fun ident addr => ?_, fun name addr => ?_⟩
  · simp only [not_mem_nil, or_false, hg]
    rw [hrm.objectStoresByIdentifier]
    constructor
    · rintro ⟨hn, hnt⟩
      have hsc := (h.not_mem_order_iff hsr ⟨ident, hn⟩).mp hnt
      obtain ⟨hlk, hg⟩ := (h.lookup_identifier_iff hsr hsc).mp hn
      exact ⟨hlk, hg, hsc⟩
    · rintro ⟨hlk, hg, hsc⟩
      exact ⟨(h.lookup_identifier_iff hsr hsc).mpr ⟨hlk, hg⟩, (h.not_mem_order_iff hsr hg).mpr hsc⟩
  · simp only [not_mem_nil, or_false, hg]
    rw [hrm.objectStoresByName]
    constructor
    · rintro ⟨hn, hnt⟩
      have hg : now.Registered addr := ⟨_, (h.schema.tables.byName name addr hn).2.2⟩
      have hsc := (h.not_mem_order_iff hsr hg).mp hnt
      exact ⟨((h.lookup_name_iff hsr hsc).mp hn).1, hg, hsc⟩
    · rintro ⟨hlk, hg, hsc⟩
      exact ⟨(h.lookup_name_iff hsr hsc).mpr ⟨hlk, hg⟩, (h.not_mem_order_iff hsr hg).mpr hsc⟩

theorem VersionChange.storesRestored (enum : Enumeration) :
    StoresRestored start now (now.aborting.restoreObjectStores enum) := by
  have hrm := (removed_nil now.aborting).foldl ⟨h.schema.tables.byName,
      h.schema.tables.byIdentifier⟩
    (enum.order now.transaction.versionChangeAddedObjectStores)
    fun addr hm oth ho heq => h.schema.unique oth addr
      (h.tracked.live oth ho) (.inr ((enum.perm _).mem_iff.mp hm)) heq
  rw [nil_append] at hrm
  generalize hst : (enum.order now.transaction.versionChangeAddedObjectStores).foldl
    removeObjectStoreForVersionChangeAbort now.aborting = rem at hrm
  obtain ⟨hg, hbg⟩ := h.reregistered_nil hsr hrm
  have hss : rem.stores = now.stores := hrm.stores
  have hrs := hbg.foldl hsr.toTablesAgree
    (enum.values now.transaction.deletedObjectStores) fun addr hm => by
      obtain ⟨name, hlk⟩ := enum.mem_values.mp hm
      have hsn := h.schema.deletedObjectStores name addr hlk
      obtain ⟨-, hnm', hid'⟩ := hsr.byName name addr hsn
      rw [hss, h.schema.name addr ⟨_, hid'⟩, h.schema.identifier addr ⟨_, hid'⟩, hnm']
      exact ⟨hsn, hid'⟩
  rw [nil_append] at hrs
  -- a store from the start is still there or was just registered
  have hbc {addr} (ha : start.Registered addr) : rem.Registered addr ∨
        addr ∈ enum.values now.transaction.deletedObjectStores := by
    rcases h.accounted addr ha with hn | hdl
    · exact .inl ((hg addr).mpr ⟨hn, ha⟩)
    · exact .inr (enum.mem_values.mpr ⟨_, hdl⟩)
  have hob : rem.transaction.objectStores = now.transaction.objectStores := by
    rw [hrm.transaction]
    rfl
  rw [restoreObjectStores]
  change StoresRestored start now
    { (enum.values now.transaction.deletedObjectStores).foldl restoreDeletedObjectStore
        ((enum.order now.transaction.versionChangeAddedObjectStores).foldl
          removeObjectStoreForVersionChangeAbort now.aborting) with
      databaseInfo := now.transaction.originalDatabaseInfo.getD _ }
  rw [hst, h.schema.originalDatabaseInfo]
  refine ⟨rfl, fun ident => ?_, fun name => ?_, hrs.stores.trans hss, hrs.heap.trans hrm.heap,
    hrs.nextIndex.trans hrm.nextIndex, ?_, fun addr ha => ?_, fun addr hm => ?_, hrs.nodup⟩
  · apply Option.ext
    intro addr
    refine (hrs.objectStoresByIdentifier ident addr).trans ?_
    exact and_iff_left_of_imp fun hlk => hbc ⟨ident, hlk⟩
  · apply Option.ext
    intro addr
    refine (hrs.objectStoresByName name addr).trans ?_
    exact and_iff_left_of_imp fun hlk => hbc ⟨_, (hsr.byName name addr hlk).2.2⟩
  · refine hrs.transaction.trans ?_
    rw [hrm.transaction]
    rfl
  · refine (hrs.objectStores addr).mpr ?_
    rw [hob]
    exact (hbc ha).imp_left fun hle =>
      h.schema.joined addr ((hg addr).mp hle).1
  · rcases (hrs.objectStores addr).mp hm with hd | hw
    · rw [hob] at hd
      exact h.tracked.joined addr hd
    · obtain ⟨name, hlk⟩ := enum.mem_values.mp hw
      exact .inl ⟨_, (hsr.byName name addr (h.schema.deletedObjectStores name addr hlk)).2.2⟩

end

section

/-- The abort with the deleted indexes that are still to be put back. -/
structure Reindexing (script : Script Key Value) (start : MemoryIDBBackingStore Key Value)
    (live : Address → Prop) (rest : List Address) (now : MemoryIDBBackingStore Key Value) :
    Prop where
  nextIndex : start.nextIndex ≤ now.nextIndex
  owns : ∀ address, live address → (now.objectStore address).OwnsIndexes
  settled : ∀ address, start.Registered address →
    Settled script (start.objectStore address) (now.objectStore address)
  described : ∀ address, start.Registered address → (now.objectStore address).Described
  pending : ∀ index ∈ rest, index < now.nextIndex ∧ live (now.heap index).objectStore ∧
    (start.Registered (now.heap index).objectStore →
      CanBeRestored script start now (now.heap index).info.name index (now.heap index).objectStore)
  kept : ∀ address, start.Registered address → ∀ name index,
    (start.stores address).indexesByName.lookup name = some index →
      (now.stores address).indexesByName.lookup name = some index ∨ index ∈ rest

variable {live : Address → Prop} {rest : List Address} {idx : Address}

/-- The store that a deleted index belongs to has it back. -/
theorem Reindexing.restore_owner (h : Reindexing scr start live (idx :: rest) now)
    (hsr : Sound scr start) (enum : Enumeration)
    (hsc : start.Registered (now.heap idx).objectStore) :
    Settled scr (start.objectStore (now.heap idx).objectStore)
        ((now.objectStore (now.heap idx).objectStore).maybeRestoreDeletedIndex scr enum idx) ∧
      ((now.objectStore (now.heap idx).objectStore).maybeRestoreDeletedIndex scr enum
        idx).Described ∧
      ((now.objectStore (now.heap idx).objectStore).maybeRestoreDeletedIndex scr enum
        idx).store.indexesByName = (now.stores (now.heap idx).objectStore).indexesByName.insert
          (now.heap idx).info.name idx := by
  obtain ⟨-, -, hrs⟩ := h.pending idx mem_cons_self
  obtain ⟨hi, hno, hv⟩ := hrs hsc
  exact (h.settled _ hsc).maybeRestoreDeletedIndex (hsr.wellFormed _ hsc)
    (hsr.mirrors _ hsc) (h.described _ hsc) hi hno hv h.nextIndex enum

section

variable (h : Reindexing scr start live (idx :: rest) now) (enum : Enumeration)

include h

theorem Reindexing.confined : Confined (now.objectStore (now.heap idx).objectStore)
    ((now.objectStore (now.heap idx).objectStore).maybeRestoreDeletedIndex scr enum idx) := by
  obtain ⟨hlt, hlv, -⟩ := h.pending idx mem_cons_self
  exact confined_maybeRestoreDeletedIndex (h.owns _ hlv) hlt rfl

theorem Reindexing.stores_of_ne {oth} (ho : oth ≠ (now.heap idx).objectStore) :
    (now.restoreDeletedIndex scr enum idx).stores oth = now.stores oth :=
  stores_withObjectStore_of_ne now (by rwa [(h.confined enum).address])

theorem Reindexing.objectStore_owner :
    (now.restoreDeletedIndex scr enum idx).objectStore (now.heap idx).objectStore =
      (now.objectStore (now.heap idx).objectStore).maybeRestoreDeletedIndex scr enum idx :=
  objectStore_withObjectStore now (h.confined enum).address

variable (hsr : Sound scr start) {oth : Address}

include hsr

/-- The owner has the index under its name, and its other indexes as before. -/
theorem Reindexing.lookup_owner (ho : start.Registered (now.heap idx).objectStore) (name : String) :
    ((now.restoreDeletedIndex scr enum idx).stores (now.heap idx).objectStore).indexesByName.lookup
      name = if name = (now.heap idx).info.name then some idx
        else (now.stores (now.heap idx).objectStore).indexesByName.lookup name := by
  rw [← lookup_insert_eq, ← (h.restore_owner hsr enum ho).2.2, ← h.objectStore_owner enum]
  rfl

theorem Reindexing.settled_next (ho : start.Registered oth) :
    Settled scr (start.objectStore oth)
      ((now.restoreDeletedIndex scr enum idx).objectStore oth) := by
  have hc := h.confined enum
  by_cases heq : oth = (now.heap idx).objectStore
  · subst heq
    rw [h.objectStore_owner enum]
    exact (h.restore_owner hsr enum ho).1
  · refine (h.settled oth ho).frame rfl (h.stores_of_ne enum heq) hc.nextIndex
      fun found hfn => hc.foreign found ?_
    obtain ⟨name, hnm⟩ := id hfn
    have hlf := ((hsr.wellFormed oth ho).byName name found hnm).1
    exact foreign_of_ne heq (hlf.trans_le h.nextIndex) ((h.settled oth ho).indexStore found hfn)

theorem Reindexing.described_next (ho : start.Registered oth) :
    ((now.restoreDeletedIndex scr enum idx).objectStore oth).Described := by
  by_cases heq : oth = (now.heap idx).objectStore
  · subst heq
    rw [h.objectStore_owner enum]
    exact (h.restore_owner hsr enum ho).2.1
  · have hwf := (h.settled oth ho).wellFormed
    refine (h.described oth ho).frame
      (congrArg (fun store => store.info.indexMap) (h.stores_of_ne enum heq))
      (congrArg MemoryObjectStore.indexesByIdentifier (h.stores_of_ne enum heq))
      fun ident found hfn => (h.confined enum).indexInfo found ?_
    exact (hwf.byName _ found (hwf.byIdentifier ident found hfn).2).1

/-- An index that is still to be restored is not the one that has been. -/
theorem Reindexing.canBeRestored_next (hnt : idx ∉ rest) (hm : oth ∈ rest)
    (ho : start.Registered (now.heap oth).objectStore) :
    CanBeRestored scr start (now.restoreDeletedIndex scr enum idx) (now.heap oth).info.name oth
      (now.heap oth).objectStore := by
  obtain ⟨hi, hno, hv⟩ := (h.pending oth (mem_cons_of_mem _ hm)).2.2 ho
  refine ⟨hi, ?_, hv⟩
  by_cases heq : (now.heap oth).objectStore = (now.heap idx).objectStore
  · rw [heq] at hi hno ho ⊢
    obtain ⟨hi', -⟩ := (h.pending idx mem_cons_self).2.2 ho
    rw [h.lookup_owner enum hsr ho, if_neg, hno]
    intro hnm
    rw [hnm, hi'] at hi
    exact hnt (Option.some.inj hi ▸ hm)
  · rw [h.stores_of_ne enum heq, hno]

theorem Reindexing.kept_next (ho : start.Registered oth) {name found}
    (hfn : (start.stores oth).indexesByName.lookup name = some found) :
    ((now.restoreDeletedIndex scr enum idx).stores oth).indexesByName.lookup name = some found ∨
      found ∈ rest := by
  by_cases heq : oth = (now.heap idx).objectStore
  · subst heq
    obtain ⟨hi, -⟩ := (h.pending idx mem_cons_self).2.2 ho
    rw [h.lookup_owner enum hsr ho]
    by_cases hnm : name = (now.heap idx).info.name
    · rw [if_pos hnm]
      rw [hnm, hi] at hfn
      exact .inl hfn
    · rw [if_neg hnm]
      refine (h.kept _ ho name found hfn).imp_right fun hm => ?_
      refine (mem_cons.mp hm).resolve_left ?_
      rintro rfl
      have hio := (h.settled _ ho).indexInfo found ⟨name, hfn⟩
      have hsn := ((hsr.wellFormed _ ho).byName name found hfn).2.1
      exact hnm (hsn.symm.trans (congrArg IDBIndexInfo.name hio.symm))
  · rw [h.stores_of_ne enum heq]
    refine (h.kept oth ho name found hfn).imp_right fun hm => ?_
    refine (mem_cons.mp hm).resolve_left ?_
    rintro rfl
    exact heq ((h.settled oth ho).indexStore found ⟨name, hfn⟩).symm

theorem Reindexing.restoreDeletedIndex (hnt : idx ∉ rest) :
    Reindexing scr start live rest (now.restoreDeletedIndex scr enum idx) := by
  have hc := h.confined enum
  refine
    { nextIndex := h.nextIndex.trans hc.nextIndex
      owns := fun oth ho => ownsIndexes_withObjectStore hc (h.owns oth ho)
      settled := fun oth => h.settled_next enum hsr
      described := fun oth => h.described_next enum hsr
      pending := fun oth hm => ?_
      kept := fun oth ho name found => h.kept_next enum hsr ho }
  obtain ⟨hl, hlh, -⟩ := h.pending oth (mem_cons_of_mem _ hm)
  have how : ((now.restoreDeletedIndex scr enum idx).heap oth).objectStore =
      (now.heap oth).objectStore := hc.indexStore oth hl
  have hio : ((now.restoreDeletedIndex scr enum idx).heap oth).info =
      (now.heap oth).info := hc.indexInfo oth hl
  rw [how, hio]
  exact ⟨hl.trans_le hc.nextIndex, hlh, h.canBeRestored_next enum hsr hnt hm⟩

end

theorem Reindexing.foldl (h : Reindexing scr start live rest now) (hsr : Sound scr start)
    (hnd : rest.Nodup) (enum : Enumeration) :
    Reindexing scr start live [] (rest.foldl
      (fun backing idx => backing.restoreDeletedIndex scr enum idx) now) := by
  induction rest generalizing now with
  | nil => exact h
  | cons idx rest ih =>
    rw [nodup_cons] at hnd
    exact ih (h.restoreDeletedIndex enum hsr hnd.1) hnd.2

/-- Putting indexes back does not touch the tables of stores. -/
theorem tables_foldl_restoreDeletedIndex (scr : Script Key Value) (rest : List Address)
    (enum : Enumeration) (now : MemoryIDBBackingStore Key Value) :
    let after := rest.foldl
      (fun backing idx => backing.restoreDeletedIndex scr enum idx) now
    after.databaseInfo = now.databaseInfo ∧
      after.objectStoresByIdentifier = now.objectStoresByIdentifier ∧
      after.objectStoresByName = now.objectStoresByName := by
  induction rest generalizing now with
  | nil => exact ⟨rfl, rfl, rfl⟩
  | cons idx rest ih => exact ih (now.restoreDeletedIndex scr enum idx)

end

/-- The state between two transactions, with the descriptions of the database and of the
stores. -/
structure SchemaSound (script : Script Key Value) (backing : MemoryIDBBackingStore Key Value) :
    Prop extends Sound script backing where
  listed : backing.Listed
  described : ∀ address, backing.Registered address → (backing.objectStore address).Described
  maxObjectStoreID : ∀ address, backing.Registered address →
    (backing.stores address).info.identifier ≤ backing.databaseInfo.maxObjectStoreID

/-- The database has the stores, the indexes, the records and the index entries of another state
of it. -/
structure SchemaRestored (script : Script Key Value)
    (start after : MemoryIDBBackingStore Key Value) : Prop where
  databaseInfo : after.databaseInfo = start.databaseInfo
  objectStoresByIdentifier : ∀ identifier, after.objectStoresByIdentifier.lookup identifier =
    start.objectStoresByIdentifier.lookup identifier
  objectStoresByName : ∀ name,
    after.objectStoresByName.lookup name = start.objectStoresByName.lookup name
  indexesByName : ∀ address, start.Registered address → ∀ name,
    (after.stores address).indexesByName.lookup name =
      (start.stores address).indexesByName.lookup name
  indexesByIdentifier : ∀ address, start.Registered address → ∀ identifier,
    (after.stores address).indexesByIdentifier.lookup identifier =
      (start.stores address).indexesByIdentifier.lookup identifier
  indexInfo : ∀ address, start.Registered address → ∀ index,
    (start.objectStore address).Registered index →
      (after.heap index).info = (start.heap index).info
  data : ∀ address, start.Registered address →
    DataRestored script (start.objectStore address) (after.objectStore address)

/-- A version change begins with every store of the database. -/
theorem SchemaSound.versionChange (hsr : SchemaSound scr start) (enum : Enumeration)
    (names : List String) : VersionChange scr start (start.beginTransaction enum true names) := by
  have hb := begun_beginTransaction start enum true names
  have hsc : (· ∈ start.scope enum true names) = start.Registered := by
    funext addr
    exact propext enum.mem_values
  have htk := hb.tracked hsr.toSound fun addr hm =>
    hsr.registered_of_mem_scope hm
  rw [hsc] at htk
  have hio (addr) : ((start.beginTransaction enum true names).stores
      addr).info = (start.stores addr).info := by
    obtain ⟨wtrans, hso⟩ := hb.stores addr
    rw [hso]
  have hlv {addr} : Live start (start.beginTransaction enum true names) addr ↔
        start.Registered addr := by
    rw [Live, hb.transaction]
    exact or_iff_left not_mem_nil
  have htr := hb.transaction
  refine ⟨htk, ?_, fun addr ha => .inl ?_⟩
  · refine
      { tables := ⟨fun name addr => ?_, fun ident addr => ?_⟩
        originalDatabaseInfo := by rw [htr]; rfl
        nextStore := hb.nextStore.ge
        added := fun addr hm => by
          rw [htr] at hm
          exact absurd hm not_mem_nil
        name := fun addr _ => by rw [hio]
        identifier := fun addr _ => by rw [hio]
        unique := fun first snd hf hs => ?_
        maxObjectStoreID := fun addr ha => by
          rw [hio, hb.databaseInfo]
          exact hsr.maxObjectStoreID addr (hlv.mp ha)
        listed := fun ident => by
          rw [hb.databaseInfo, hb.objectStoresByIdentifier]
          simp only [hio]
          exact hsr.listed ident
        joined := fun addr ha => by
          rw [Registered, hb.objectStoresByIdentifier] at ha
          exact (hb.objectStores addr).mpr (enum.mem_values.mpr ha)
        deletedObjectStores := fun name addr hlk => by
          rw [htr] at hlk
          cases hlk
        described := fun addr ha => ?_
        deletedIndexes := fun name idx hlk => by
          rw [htr] at hlk
          cases hlk }
    · rw [hb.objectStoresByName, hb.objectStoresByIdentifier, hio, hb.nextStore]
      exact hsr.byName name addr
    · rw [hb.objectStoresByName, hb.objectStoresByIdentifier, hio]
      exact hsr.byIdentifier ident addr
    · obtain ⟨first', hf⟩ := hlv.mp hf
      obtain ⟨snd', hs⟩ := hlv.mp hs
      rw [hio, hio, (hsr.byIdentifier _ first hf).1, (hsr.byIdentifier _ snd hs).1]
      rintro rfl
      exact Option.some.inj (hf.symm.trans hs)
    · obtain ⟨wtrans, hso⟩ := hb.stores addr
      refine (hsr.described addr ha).frame ?_ ?_ fun _ idx _ => ?_
      · rw [objectStore, hso]
        rfl
      · rw [objectStore, hso]
        rfl
      · rw [objectStore, hb.heap]
        rfl
  · rw [Registered, hb.objectStoresByIdentifier]
    exact ha

variable {reg replayed : MemoryIDBBackingStore Key Value}

/-- After the replay the deleted indexes are what is left to do. -/
theorem VersionChange.reindexing (h : VersionChange scr start now)
    (hg : StoresRestored start now reg) (ht : KeepsTables reg replayed)
    (hab : Aborting scr start.Registered (Live start now) start [] replayed)
    (enum : Enumeration) :
    Reindexing scr start (Live start now)
      (enum.values replayed.transaction.deletedIndexes) replayed ∧
    (enum.values replayed.transaction.deletedIndexes).Nodup := by
  have hdl : replayed.transaction.deletedIndexes = now.transaction.deletedIndexes := by
    rw [ht.deletedIndexes, hg.transaction]
  have hio {idx} (hlt : idx < now.nextIndex) :
      (replayed.heap idx).info = (now.heap idx).info := by
    rw [ht.indexInfo idx (hg.nextIndex ▸ hlt), hg.heap]
  have how {idx} (hlt : idx < now.nextIndex) :
      (replayed.heap idx).objectStore = (now.heap idx).objectStore := by
    rw [ht.indexStore idx (hg.nextIndex ▸ hlt), hg.heap]
  have hix (addr) :
      (replayed.stores addr).indexesByName = (now.stores addr).indexesByName := by
    rw [ht.indexesByName, hg.stores]
  rw [hdl]
  refine ⟨⟨hab.nextIndex, hab.owns, fun addr ha =>
      hab.settled addr ha not_mem_nil, fun addr ha => ?_,
      fun idx hi => ?_, fun addr ha name idx hnm => ?_⟩, ?_⟩
  · refine (h.schema.described addr ha).frame ?_ ?_ fun ident idx hi => hio
      (h.tracked.owns addr (.inl ha) idx (.inr ⟨ident, hi⟩)).1
    · refine congrArg IDBObjectStoreInfo.indexMap ((ht.info addr).trans ?_)
      rw [hg.stores]
      rfl
    · refine (ht.indexesByIdentifier addr).trans ?_
      rw [hg.stores]
      rfl
  · obtain ⟨name, hlk⟩ := enum.mem_values.mp hi
    obtain ⟨hlt, hnm, hlv, hrs⟩ := h.schema.deletedIndexes name idx hlk
    rw [how hlt, hio hlt, hnm]
    refine ⟨(hg.nextIndex ▸ hlt : idx < reg.nextIndex).trans_le ht.nextIndex, hlv, fun hsc => ?_⟩
    rw [CanBeRestored, hix]
    exact hrs hsc
  · rw [hix]
    exact (h.tracked.kept addr ha name idx hnm).imp_right fun hlk =>
      enum.mem_values.mpr ⟨name, hlk⟩
  · apply enum.nodup_values
    intro name name' idx hnm hnm'
    exact (h.schema.deletedIndexes name idx hnm).2.1.symm.trans
      (h.schema.deletedIndexes name' idx hnm').2.1

/-- With all indexes back, each store is as it was. -/
theorem Reindexing.schemaRestored {live : Address → Prop}
    (h : Reindexing scr start live [] now) (hsr : Sound scr start)
    (hdt : now.databaseInfo = start.databaseInfo)
    (hbd : ∀ ident, now.objectStoresByIdentifier.lookup ident =
      start.objectStoresByIdentifier.lookup ident) (hby : ∀ name,
      now.objectStoresByName.lookup name = start.objectStoresByName.lookup name) :
    SchemaRestored scr start now := by
  have hk {addr} (ha : start.Registered addr) {name}
      {idx}
      (hnm : (start.stores addr).indexesByName.lookup name = some idx) :
      (now.stores addr).indexesByName.lookup name = some idx :=
    (h.kept addr ha name idx hnm).resolve_right not_mem_nil
  refine ⟨hdt, hbd, hby, fun addr ha name => ?_,
    fun addr ha ident => ?_, fun addr ha idx hi =>
      (h.settled addr ha).indexInfo idx hi, fun addr ha =>
      (h.settled addr ha).dataRestored (hsr.wellFormed addr ha) fun name idx hnm => hk ha hnm⟩
  · apply Option.ext
    intro idx
    exact ⟨(h.settled addr ha).indexesByName name idx, hk ha⟩
  · have hsl := h.settled addr ha
    have hwf := hsr.wellFormed addr ha
    apply Option.ext
    intro idx
    constructor
    · intro hlk
      obtain ⟨hid, hnm⟩ := hsl.wellFormed.byIdentifier ident idx hlk
      have hnm' := hsl.indexesByName _ idx hnm
      have hio := hsl.indexInfo idx ⟨_, hnm'⟩
      rw [hio] at hid
      rw [← hid]
      exact (hwf.byName _ idx hnm').2.2
    · intro hlk
      obtain ⟨hid, hnm⟩ := hwf.byIdentifier ident idx hlk
      have hio := hsl.indexInfo idx ⟨_, hnm⟩
      rw [← hid, ← hio]
      exact (hsl.wellFormed.byName _ idx (hk ha hnm)).2.2

theorem schemaRestored_finish (h : SchemaRestored scr start now) :
    SchemaRestored scr start now.finish := by
  refine ⟨h.databaseInfo, h.objectStoresByIdentifier, h.objectStoresByName, fun addr ha name => ?_,
    fun addr ha ident => ?_, h.indexInfo, fun addr ha => dataRestored_finish (h.data addr ha)⟩
  all_goals
    obtain ⟨wtrans, hso⟩ := stores_finish now addr
    rw [hso]
  · exact h.indexesByName addr ha name
  · exact h.indexesByIdentifier addr ha ident

theorem schemaSound_kindDatabase (map : Option (KeyValueMap Nat Unit)) :
    SchemaSound kindScript (kindDatabase map) := by
  refine ⟨sound_kindDatabase map, fun ident => ?_, fun addr _ ident => rfl, fun addr _ => le_rfl⟩
  change Option.map _ (AList.lookup ident
    ((∅ : Table Nat IDBObjectStoreInfo).insert 1 kindStoreInfo)) =
      Option.map _ (AList.lookup ident ((∅ : Table Nat Address).insert 1 0))
  rw [lookup_insert_eq, lookup_insert_eq]
  split
  case isTrue heq =>
    rw [heq]
    rfl
  case isFalse => rfl

/-- The description of a second store. -/
def toolStoreInfo : IDBObjectStoreInfo := ⟨2, "tools", .null, false, 0, ∅⟩

/-- A store with an index is created and the one from the start is deleted. -/
def replaceStore : List (Enumeration × Operation Nat Unit) :=
  [(newestFirst, .createObjectStore toolStoreInfo),
    (newestFirst, .createIndex { kindIndexInfo with objectStoreIdentifier := 2 }),
    (newestFirst, .deleteObjectStore 1)]

end MemoryIDBBackingStore

end QtWebKit.IndexedDB
