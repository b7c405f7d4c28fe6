import QtWebKit.IndexedDB.SchemaUndo

/-! # The schema along a version change

`SchemaTracked` relates the tables of stores and indexes at the start of a version
change to those at a later point of it. A store from the start stays registered or
is remembered as deleted, an index that it had stays registered or is remembered,
and what the transaction has created keeps to names, identifiers and addresses of
its own. -/

namespace QtWebKit.IndexedDB

open Lib List Option Table Function

variable {Key Value : Type} [IDBKeyData Key] {scr : Script Key Value}

namespace MemoryIDBBackingStore

open MemoryBackingStoreTransaction ObjectStoreState

variable {start now : MemoryIDBBackingStore Key Value} {addr : Address}

/-- The description of the database lists the registered stores. -/
def Listed (backing : MemoryIDBBackingStore Key Value) : Prop :=
  ∀ identifier,
    (backing.databaseInfo.objectStoreMap.lookup identifier).map
      (fun info => (info.identifier, info.name)) =
    (backing.objectStoresByIdentifier.lookup identifier).map
      fun address => (identifier, (backing.stores address).info.name)

/-- Every record of a store has a value that is neither undefined nor null. -/
def HasValues (script : Script Key Value) (backing : MemoryIDBBackingStore Key Value)
    (address : Address) : Prop :=
  ∀ key value, (backing.stores address).record key = some value →
    script.yieldsNothing value = false

/-- A deleted index of a store from the start is one that the store had then, is gone, and can be
populated again. -/
def CanBeRestored (script : Script Key Value) (start now : MemoryIDBBackingStore Key Value)
    (name : String) (index address : Address) : Prop :=
  (start.stores address).indexesByName.lookup name = some index ∧
    (now.stores address).indexesByName.lookup name = none ∧ HasValues script start address

structure SchemaTracked (script : Script Key Value)
    (start now : MemoryIDBBackingStore Key Value) : Prop where
  tables : now.TablesAgree
  originalDatabaseInfo : now.transaction.originalDatabaseInfo = some start.databaseInfo
  nextStore : start.nextStore ≤ now.nextStore
  added : ∀ address ∈ now.transaction.versionChangeAddedObjectStores,
    start.nextStore ≤ address ∧ address < now.nextStore
  name : ∀ address, start.Registered address →
    (now.stores address).info.name = (start.stores address).info.name
  identifier : ∀ address, start.Registered address →
    (now.stores address).info.identifier = (start.stores address).info.identifier
  unique : ∀ address address', Live start now address → Live start now address' →
    (now.stores address).info.identifier = (now.stores address').info.identifier →
      address = address'
  maxObjectStoreID : ∀ address, Live start now address →
    (now.stores address).info.identifier ≤ now.databaseInfo.maxObjectStoreID
  listed : now.Listed
  joined : ∀ address, now.Registered address → address ∈ now.transaction.objectStores
  deletedObjectStores : ∀ name address,
    now.transaction.deletedObjectStores.lookup name = some address →
      start.objectStoresByName.lookup name = some address
  described : ∀ address, start.Registered address → (now.objectStore address).Described
  deletedIndexes : ∀ name index, now.transaction.deletedIndexes.lookup name = some index →
    index < now.nextIndex ∧ (now.heap index).info.name = name ∧
      Live start now (now.heap index).objectStore ∧
      (start.Registered (now.heap index).objectStore →
        CanBeRestored script start now name index (now.heap index).objectStore)

/-- The stores from the start that are not registered are remembered. -/
def Accounted (start now : MemoryIDBBackingStore Key Value) : Prop :=
  ∀ address, start.Registered address → now.Registered address ∨
    now.transaction.deletedObjectStores.lookup (start.stores address).info.name = some address

theorem Sound.lt_nextStore (hst : Sound scr start) (h : start.Registered addr) :
    addr < start.nextStore := by
  obtain ⟨ident, hid⟩ := h
  exact (hst.byName _ addr (hst.byIdentifier ident addr hid).2).1

theorem SchemaTracked.ne_nextStore (h : SchemaTracked scr start now)
    (hst : Sound scr start) {addr} (hlv : Live start now addr) : addr ≠ now.nextStore := by
  rcases hlv with hg | hm
  · exact Nat.ne_of_lt ((hst.lt_nextStore hg).trans_le h.nextStore)
  · exact Nat.ne_of_lt (h.added addr hm).2

/-- A store from the start is not one that was created. -/
theorem SchemaTracked.not_mem_added (h : SchemaTracked scr start now)
    (hst : Sound scr start) (ha : start.Registered addr) :
    addr ∉ now.transaction.versionChangeAddedObjectStores := fun hm =>
  absurd (h.added addr hm).1 (Nat.not_le.mpr (hst.lt_nextStore ha))

theorem SchemaTracked.joinedAtStart_iff (h : SchemaTracked scr start now)
    (hst : Sound scr start) (htk : Tracked scr start.Registered start now)
    (ha : now.Registered addr) : now.JoinedAtStart addr ↔ start.Registered addr := by
  constructor
  · rintro ⟨-, had⟩
    exact (htk.live addr ha).resolve_right had
  · intro hg
    exact ⟨h.joined addr ha, h.not_mem_added hst hg⟩

/-- The store of a name is the one from the start, if there was one. -/
theorem SchemaTracked.onlyDeleted (h : SchemaTracked scr start now)
    (hst : Sound scr start) (ha : start.Registered addr) : (now.objectStore addr).OnlyDeleted := by
  obtain ⟨ident, hid⟩ := ha
  intro oth ho
  have hnm := h.deletedObjectStores _ oth ho
  have hsm := (hst.byIdentifier ident addr hid).2
  change start.objectStoresByName.lookup (now.stores addr).info.name = some oth at hnm
  rw [h.name addr ⟨ident, hid⟩, hsm] at hnm
  exact (some.inj hnm).symm

section

variable {st : ObjectStoreState Key Value}

omit [IDBKeyData Key] in
theorem withObjectStore_objectStore (backing : MemoryIDBBackingStore Key Value)
    (addr : Address) : backing.withObjectStore (backing.objectStore addr) = backing := by
  rw [MemoryIDBBackingStore.withObjectStore, objectStore, update_eq_self]

omit [IDBKeyData Key] in
/-- A method of one store leaves the names and identifiers of all stores. -/
theorem info_withObjectStore (hc : Confined (now.objectStore addr) st) (oth : Address) :
    ((now.withObjectStore st).stores oth).info.name = (now.stores oth).info.name ∧
    ((now.withObjectStore st).stores oth).info.identifier =
      (now.stores oth).info.identifier := by
  have ha : st.address = addr := hc.address
  by_cases heq : oth = addr
  · have hso : (now.withObjectStore st).stores oth = st.store := by
      rw [heq, ← ha]
      exact update_self _ _ _
    rw [hso, heq]
    exact ⟨hc.name, hc.identifier⟩
  · rw [stores_withObjectStore_of_ne now (by rwa [ha])]
    exact ⟨rfl, rfl⟩

variable (h : SchemaTracked scr start now) (htk : Tracked scr start.Registered start now)
include h htk

/-- One method of one store. -/
theorem SchemaTracked.withObjectStore (hlv : Live start now addr)
    (hc : Confined (now.objectStore addr) st) (hds : start.Registered addr → st.Described)
    (hgn : start.Registered addr → ∀ name, (now.stores addr).indexesByName.lookup name = none →
        st.store.indexesByName.lookup name = none) (hdl : start.Registered addr → ∀ name idx,
      st.transaction.deletedIndexes.lookup name = some idx →
        now.transaction.deletedIndexes.lookup name = some idx ∨
          (start.stores addr).indexesByName.lookup name = some idx ∧
            st.store.indexesByName.lookup name = none ∧ HasValues scr start addr) :
    SchemaTracked scr start (now.withObjectStore st) := by
  have ha : st.address = addr := hc.address
  have hio := info_withObjectStore hc
  have hsl : (now.withObjectStore st).stores addr = st.store := by
    rw [← ha]
    exact update_self _ _ _
  have ho {oth} (hne : oth ≠ addr) :
      (now.withObjectStore st).stores oth = now.stores oth :=
    stores_withObjectStore_of_ne now (by rwa [ha])
  have hlf {oth} : Live start (now.withObjectStore st) oth ↔ Live start now oth :=
    live_withObjectStore hc
  have hsc : SameScope now.transaction (now.withObjectStore st).transaction :=
    hc.scope
  refine
    { tables := ⟨fun name oth hnm => ?_, fun ident oth hid => ?_⟩
      originalDatabaseInfo := hsc.originalDatabaseInfo.trans h.originalDatabaseInfo
      nextStore := h.nextStore
      added := by rw [hsc.versionChangeAddedObjectStores]; exact h.added
      name := fun oth hg => by rw [(hio oth).1, h.name oth hg]
      identifier := fun oth hg => by
        rw [(hio oth).2, h.identifier oth hg]
      unique := fun first snd hf hs => by
        rw [(hio first).2, (hio snd).2]
        exact h.unique first snd (hlf.mp hf) (hlf.mp hs)
      maxObjectStoreID := fun oth ho => by
        rw [(hio oth).2]
        exact h.maxObjectStoreID oth (hlf.mp ho)
      listed := fun ident => ?_
      joined := by rw [hsc.objectStores]; exact h.joined
      deletedObjectStores := by rw [hsc.deletedObjectStores]; exact h.deletedObjectStores
      described := fun oth hg => ?_
      deletedIndexes := fun name idx hlk => ?_ }
  · rw [(hio oth).1, (hio oth).2]
    exact h.tables.byName name oth hnm
  · rw [(hio oth).1, (hio oth).2]
    exact h.tables.byIdentifier ident oth hid
  · refine (h.listed ident).trans ?_
    simp only [(hio _).1]
    rfl
  · by_cases heq : oth = addr
    · rw [heq, objectStore_withObjectStore now ha]
      exact hds (heq ▸ hg)
    · have hss := ho heq
      exact (h.described oth hg).frame
        (congrArg (fun store => store.info.indexMap) hss)
        (congrArg MemoryObjectStore.indexesByIdentifier hss) fun ident idx hi =>
          hc.indexInfo idx (htk.owns oth (.inl hg) idx (.inr ⟨ident, hi⟩)).1
  · by_cases hd : now.transaction.deletedIndexes.lookup name = some idx
    · obtain ⟨hlt, hnm, hlw, hr⟩ := h.deletedIndexes name idx hd
      have hon : ((now.withObjectStore st).heap idx).objectStore =
          (now.heap idx).objectStore := hc.indexStore idx hlt
      have hin : ((now.withObjectStore st).heap idx).info = (now.heap idx).info :=
        hc.indexInfo idx hlt
      rw [hon, hin, hlf]
      refine ⟨hlt.trans_le hc.nextIndex, hnm, hlw, fun hg => ?_⟩
      obtain ⟨hsd, hno, hv⟩ := hr hg
      refine ⟨hsd, ?_, hv⟩
      by_cases heq : (now.heap idx).objectStore = addr
      · rw [heq] at hno hg ⊢
        rw [hsl]
        exact hgn hg name hno
      · rw [ho heq]
        exact hno
    · obtain ⟨hlt, hon, hnm⟩ :=
        (hc.newlyDeleted name idx hlk).resolve_left hd
      have hon' : ((now.withObjectStore st).heap idx).objectStore = addr :=
        hon.trans ha
      rw [hon', hlf]
      refine ⟨hlt, hnm, hlv, fun hg => ?_⟩
      rw [CanBeRestored, hsl]
      exact (hdl hg name idx hlk).resolve_left hd

/-- A request that leaves all tables alone. -/
theorem SchemaTracked.keepsTables {after}
    (ht : KeepsTables now after) : SchemaTracked scr start after := by
  have hlv {oth} : Live start after oth ↔ Live start now oth := by
    rw [Live, Live, ht.scope.versionChangeAddedObjectStores]
  refine
    { tables := ⟨fun name oth => ?_, fun ident oth => ?_⟩
      originalDatabaseInfo := ht.scope.originalDatabaseInfo.trans h.originalDatabaseInfo
      nextStore := by rw [ht.nextStore]; exact h.nextStore
      added := by
        rw [ht.scope.versionChangeAddedObjectStores, ht.nextStore]
        exact h.added
      name := fun oth ho => by rw [ht.info, h.name oth ho]
      identifier := fun oth ho => by rw [ht.info, h.identifier oth ho]
      unique := fun first snd hf hs => by
        rw [ht.info, ht.info]
        exact h.unique first snd (hlv.mp hf) (hlv.mp hs)
      maxObjectStoreID := fun oth ho => by
        rw [ht.info, ht.databaseInfo]
        exact h.maxObjectStoreID oth (hlv.mp ho)
      listed := fun ident => by
        rw [ht.databaseInfo, ht.objectStoresByIdentifier]
        simp only [ht.info]
        exact h.listed ident
      joined := fun oth ho => by
        rw [Registered, ht.objectStoresByIdentifier] at ho
        rw [ht.scope.objectStores]
        exact h.joined oth ho
      deletedObjectStores := by
        rw [ht.scope.deletedObjectStores]
        exact h.deletedObjectStores
      described := fun oth ho => (h.described oth ho).frame
        (congrArg IDBObjectStoreInfo.indexMap (ht.info oth))
        (ht.indexesByIdentifier oth) fun ident idx hi =>
          ht.indexInfo idx (htk.owns oth (.inl ho) idx (.inr ⟨ident, hi⟩)).1
      deletedIndexes := fun name idx hlk => ?_ }
  · rw [ht.objectStoresByName, ht.objectStoresByIdentifier, ht.info, ht.nextStore]
    exact h.tables.byName name oth
  · rw [ht.objectStoresByName, ht.objectStoresByIdentifier, ht.info]
    exact h.tables.byIdentifier ident oth
  · rw [ht.deletedIndexes] at hlk
    obtain ⟨hlt, hnm, hlw, hr⟩ := h.deletedIndexes name idx hlk
    rw [ht.indexStore idx hlt, ht.indexInfo idx hlt, hlv]
    refine ⟨hlt.trans_le ht.nextIndex, hnm, hlw, fun hg => ?_⟩
    rw [CanBeRestored, ht.indexesByName]
    exact hr hg

/-- Deleting indexes of a store from the start. -/
theorem SchemaTracked.strips (ha : start.Registered addr) (hsr : Strips (now.objectStore addr) st)
    (hv : (∃ name idx, (now.stores addr).indexesByName.lookup name = some idx ∧
      st.store.indexesByName.lookup name = none) → HasValues scr start addr) :
    SchemaTracked scr start (now.withObjectStore st) := by
  refine h.withObjectStore htk (.inl ha) hsr.confined
    (fun _ => hsr.described (h.described addr ha)) (fun _ name hno => ?_)
    fun _ name idx hlk => ?_
  · cases haf : st.store.indexesByName.lookup name with
    | none => rfl
    | some idx =>
      have hn := hsr.indexesByName name idx haf
      change (now.stores addr).indexesByName.lookup name = some idx at hn
      rw [hno] at hn
      cases hn
  · rcases hsr.deleted name idx hlk with hd | ⟨hn, haf⟩
    · exact .inl hd
    · refine .inr ⟨?_, haf, hv ⟨name, idx, hn, haf⟩⟩
      exact (htk.undoable addr ha).indexesByName name idx hn

end

section

variable {after : MemoryIDBBackingStore Key Value} {info : IDBObjectStoreInfo}

/-- The fields after the creation of a store. -/
structure CreatesStore (now after : MemoryIDBBackingStore Key Value) (info : IDBObjectStoreInfo) :
    Prop where
  databaseInfo : after.databaseInfo = now.databaseInfo.addExistingObjectStore info
  objectStoresByIdentifier : after.objectStoresByIdentifier =
    now.objectStoresByIdentifier.insert info.identifier now.nextStore
  objectStoresByName : after.objectStoresByName =
    now.objectStoresByName.insert info.name now.nextStore
  newStore : after.stores now.nextStore = { MemoryObjectStore.create info with
    writeTransaction := true }
  stores : ∀ address, address ≠ now.nextStore → after.stores address = now.stores address
  nextStore : after.nextStore = now.nextStore + 1
  heap : after.heap = now.heap
  nextIndex : after.nextIndex = now.nextIndex
  originalDatabaseInfo :
    after.transaction.originalDatabaseInfo = now.transaction.originalDatabaseInfo
  objectStores : after.transaction.objectStores = now.transaction.objectStores.insert now.nextStore
  versionChangeAddedObjectStores : after.transaction.versionChangeAddedObjectStores =
    now.transaction.versionChangeAddedObjectStores.insert now.nextStore
  deletedObjectStores : after.transaction.deletedObjectStores = now.transaction.deletedObjectStores
  deletedIndexes : after.transaction.deletedIndexes = now.transaction.deletedIndexes
  undo : ∀ address, address ≠ now.nextStore → ∀ indexes,
    SameUndo address indexes now.transaction after.transaction

omit [IDBKeyData Key] in
theorem createsStore_createObjectStore (h : ¬ now.databaseInfo.hasObjectStore info.name = true) :
    CreatesStore now (now.createObjectStore info) info := by
  rw [createObjectStore, if_neg h]
  refine ⟨rfl, ?_, ?_, ?_, fun addr hne => ?_, rfl, rfl, rfl, rfl, rfl, rfl, rfl, rfl,
    fun addr hne idxs => ⟨rfl, ?_, rfl, rfl, rfl, fun _ _ => rfl⟩⟩
  all_goals simp only [registerObjectStore, addExistingObjectStore, update_self]
  · rfl
  · rfl
  · rw [update_of_ne hne, update_of_ne hne]
  · split
    · rfl
    · rw [lookup_insert_eq, if_neg hne]

namespace CreatesStore

section

omit [IDBKeyData Key]

theorem live_iff (h : CreatesStore now after info) :
    Live start after addr ↔ Live start now addr ∨ addr = now.nextStore := by
  rw [Live, h.versionChangeAddedObjectStores, mem_insert_iff]
  constructor
  · rintro (hg | rfl | hm)
    · exact .inl (.inl hg)
    · exact .inr rfl
    · exact .inl (.inr hm)
  · rintro ((hg | hm) | rfl)
    · exact .inl hg
    · exact .inr (.inr hm)
    · exact .inr (.inl rfl)

theorem registered_cases (h : CreatesStore now after info) (ha : after.Registered addr) :
    now.Registered addr ∨ addr = now.nextStore := by
  obtain ⟨ident, hid⟩ := ha
  rw [h.objectStoresByIdentifier, lookup_insert_eq] at hid
  split at hid
  · exact .inr (some.inj hid).symm
  · exact .inl ⟨ident, hid⟩

theorem ownsIndexes (h : CreatesStore now after info)
    (how : (now.objectStore addr).OwnsIndexes) (hne : addr ≠ now.nextStore) :
    (after.objectStore addr).OwnsIndexes := by
  rw [objectStore, h.stores addr hne, h.heap, h.nextIndex]
  exact how

/-- A new store has no index. -/
theorem ownsIndexes_newStore (h : CreatesStore now after info) :
    (after.objectStore now.nextStore).OwnsIndexes := by
  rw [objectStore, h.newStore]
  rintro idx (⟨name, hnm⟩ | ⟨ident, hid⟩)
  · cases hnm
  · cases hid

end

theorem tracked (h : CreatesStore now after info) (hst : Sound scr start)
    (hsh : SchemaTracked scr start now) (htk : Tracked scr start.Registered start now) :
    Tracked scr start.Registered start after := by
  have hne {addr} : Live start now addr → _ := hsh.ne_nextStore hst
  refine
    { nextIndex := htk.nextIndex.trans h.nextIndex.ge
      inScope := htk.inScope
      live := fun addr ha =>
        h.live_iff.mpr ((h.registered_cases ha).imp_left (htk.live addr))
      owns := fun addr ha => ?_
      undoable := fun addr ha => ?_
      kept := fun addr ha => ?_
      nodup := by
        rw [h.objectStores]
        exact List.Nodup.insert htk.nodup
      joined := fun addr ha => ?_ }
  · rcases h.live_iff.mp ha with hlv | rfl
    · exact h.ownsIndexes (htk.owns addr hlv) (hne hlv)
    · exact h.ownsIndexes_newStore
  · have ha' := hne (.inl ha)
    exact (htk.undoable addr ha).frame rfl (h.stores addr ha')
      (fun idx _ => congrFun h.heap idx) h.nextIndex.ge (h.undo addr ha' _)
  · rw [h.stores addr (hne (.inl ha)), h.deletedIndexes]
    exact htk.kept addr ha
  · rw [h.objectStores, mem_insert_iff] at ha
    rw [h.live_iff]
    exact ha.symm.imp_left (htk.joined addr)

/-- A name that the description does not list is free. -/
theorem lookup_name_eq_none (hsh : SchemaTracked scr start now)
    (hnm : ¬ now.databaseInfo.hasObjectStore info.name = true) :
    now.objectStoresByName.lookup info.name = none := by
  cases hlk : now.objectStoresByName.lookup info.name with
  | none => rfl
  | some addr =>
    obtain ⟨-, hnm', hid⟩ := hsh.tables.byName _ addr hlk
    have hl := hsh.listed (now.stores addr).info.identifier
    rw [hid, map_some, map_eq_some_iff] at hl
    obtain ⟨listed, hl, heq⟩ := hl
    exact absurd (IDBDatabaseInfo.hasObjectStore_iff.mpr
      ⟨_, listed, hl, (Prod.mk.inj heq).2.trans hnm'⟩) hnm

section

variable (h : CreatesStore now after info) (hst : Sound scr start)
  (hsh : SchemaTracked scr start now)

omit [IDBKeyData Key] in
include h in
theorem info_newStore : (after.stores now.nextStore).info = info := by
  rw [h.newStore]
  rfl

include h hst hsh

theorem stores_of_live (hlv : Live start now addr) : after.stores addr = now.stores addr :=
  h.stores addr (hsh.ne_nextStore hst hlv)

/-- The identifier of the new store is above those of the stores there are. -/
theorem eq_of_identifier_eq (hid : now.databaseInfo.maxObjectStoreID < info.identifier)
    {first snd : Address} (hf : Live start after first) (hs : Live start after snd)
    (heq : (after.stores first).info.identifier = (after.stores snd).info.identifier) :
    first = snd := by
  have hlt {addr} (hlv : Live start now addr) :
      (after.stores addr).info.identifier < info.identifier := by
    rw [h.stores_of_live hst hsh hlv]
    exact (hsh.maxObjectStoreID addr hlv).trans_lt hid
  rcases h.live_iff.mp hf with hf | rfl <;> rcases h.live_iff.mp hs with hs | rfl
  · rw [h.stores_of_live hst hsh hf, h.stores_of_live hst hsh hs] at heq
    exact hsh.unique first snd hf hs heq
  · rw [h.info_newStore] at heq
    exact absurd heq (hlt hf).ne
  · rw [h.info_newStore] at heq
    exact absurd heq.symm (hlt hs).ne
  · rfl

variable (htk : Tracked scr start.Registered start now)

include htk

theorem tablesAgree (hnm : ¬ now.databaseInfo.hasObjectStore info.name = true)
    (hid : now.databaseInfo.maxObjectStoreID < info.identifier) : after.TablesAgree := by
  refine ⟨fun name addr hlk => ?_, fun ident addr hlk => ?_⟩
  · rw [h.objectStoresByName, lookup_insert_eq] at hlk
    rw [h.nextStore, h.objectStoresByIdentifier, lookup_insert_eq]
    split at hlk
    case isTrue heq =>
      obtain rfl := some.inj hlk
      rw [h.info_newStore]
      exact ⟨Nat.lt_succ_self _, heq.symm, if_pos rfl⟩
    case isFalse =>
      obtain ⟨hls, hnm', hlk'⟩ := hsh.tables.byName name addr hlk
      have hlv := htk.live addr ⟨_, hlk'⟩
      rw [h.stores_of_live hst hsh hlv, if_neg ((hsh.maxObjectStoreID addr hlv).trans_lt hid).ne]
      exact ⟨hls.trans (Nat.lt_succ_self _), hnm', hlk'⟩
  · rw [h.objectStoresByIdentifier, lookup_insert_eq] at hlk
    rw [h.objectStoresByName, lookup_insert_eq]
    split at hlk
    case isTrue heq =>
      obtain rfl := some.inj hlk
      rw [h.info_newStore]
      exact ⟨heq.symm, if_pos rfl⟩
    case isFalse =>
      obtain ⟨hid', hlk'⟩ := hsh.tables.byIdentifier ident addr hlk
      rw [h.stores_of_live hst hsh (htk.live addr ⟨_, hlk⟩), if_neg, hlk']
      · exact ⟨hid', rfl⟩
      · intro heq
        rw [heq, lookup_name_eq_none hsh hnm] at hlk'
        cases hlk'

theorem listed : after.Listed := by
  intro ident
  rw [h.databaseInfo, IDBDatabaseInfo.addExistingObjectStore]
  rw [h.objectStoresByIdentifier, lookup_insert_eq, lookup_insert_eq]
  split
  case isTrue heq => simp only [map_some, h.info_newStore, heq]
  case isFalse =>
    refine (hsh.listed ident).trans ?_
    cases hlk : now.objectStoresByIdentifier.lookup ident with
    | none => rfl
    | some addr => simp [h.stores_of_live hst hsh (htk.live addr ⟨_, hlk⟩)]

theorem schemaTracked (hnm : ¬ now.databaseInfo.hasObjectStore info.name = true)
    (hid : now.databaseInfo.maxObjectStoreID < info.identifier) :
    SchemaTracked scr start after := by
  have hd {addr} (hg : start.Registered addr) :
      after.stores addr = now.stores addr := h.stores_of_live hst hsh (.inl hg)
  refine
    { tables := h.tablesAgree hst hsh htk hnm hid
      originalDatabaseInfo := h.originalDatabaseInfo.trans hsh.originalDatabaseInfo
      nextStore := by rw [h.nextStore]; exact hsh.nextStore.trans (Nat.le_succ _)
      added := fun addr hm => ?_
      name := fun addr hg => by rw [hd hg, hsh.name addr hg]
      identifier := fun addr hg => by
        rw [hd hg, hsh.identifier addr hg]
      unique := fun first snd => h.eq_of_identifier_eq hst hsh hid
      maxObjectStoreID := fun addr hlv => ?_
      listed := h.listed hst hsh htk
      joined := fun addr hg => ?_
      deletedObjectStores := by rw [h.deletedObjectStores]; exact hsh.deletedObjectStores
      described := fun addr hg => by
        rw [objectStore, hd hg, h.heap]
        exact hsh.described addr hg
      deletedIndexes := fun name idx hlk => ?_ }
  · rw [h.versionChangeAddedObjectStores, mem_insert_iff] at hm
    rw [h.nextStore]
    rcases hm with rfl | hm
    · exact ⟨hsh.nextStore, Nat.lt_succ_self _⟩
    · obtain ⟨hle, hls⟩ := hsh.added addr hm
      exact ⟨hle, hls.trans (Nat.lt_succ_self _)⟩
  · rw [h.databaseInfo]
    rcases h.live_iff.mp hlv with hlv | rfl
    · rw [h.stores_of_live hst hsh hlv]
      exact (hsh.maxObjectStoreID addr hlv).trans (le_max_left _ _)
    · rw [h.info_newStore]
      exact le_max_right _ _
  · rw [h.objectStores, mem_insert_iff]
    exact (h.registered_cases hg).symm.imp_right (hsh.joined addr)
  · rw [h.deletedIndexes] at hlk
    obtain ⟨hln, hnm', hlv, hr⟩ := hsh.deletedIndexes name idx hlk
    rw [h.heap, h.nextIndex, h.live_iff]
    refine ⟨hln, hnm', .inl hlv, fun hg => ?_⟩
    rw [CanBeRestored, hd hg]
    exact hr hg

end

omit [IDBKeyData Key] in
theorem accounted (h : CreatesStore now after info) (hac : Accounted start now)
    (hid : now.objectStoresByIdentifier.lookup info.identifier = none) : Accounted start after := by
  intro addr ha
  rw [h.deletedObjectStores]
  refine (hac addr ha).imp_left ?_
  rintro ⟨ident, hlk⟩
  refine ⟨ident, ?_⟩
  rw [h.objectStoresByIdentifier, lookup_insert_eq, if_neg, hlk]
  rintro rfl
  rw [hid] at hlk
  cases hlk

end CreatesStore

end

section

variable {after : MemoryIDBBackingStore Key Value} {ident : Nat}

/-- A change of the lists of stores in the transaction and of the tables of stores. -/
theorem Tracked.frame {scope : Address → Prop} (h : Tracked scr scope start now)
    (hss : after.stores = now.stores) (hhp : after.heap = now.heap)
    (hnx : after.nextIndex = now.nextIndex)
    (hg : ∀ addr, after.Registered addr → now.Registered addr)
    (hun : ∀ addr idxs, SameUndo addr idxs now.transaction after.transaction)
    (hdl : after.transaction.deletedIndexes = now.transaction.deletedIndexes)
    (had : after.transaction.versionChangeAddedObjectStores =
      now.transaction.versionChangeAddedObjectStores) (hnd : after.transaction.objectStores.Nodup)
    (hj : after.transaction.objectStores ⊆ now.transaction.objectStores) :
    Tracked scr scope start after := by
  have hlv {addr} : Live start after addr ↔ Live start now addr := by
    rw [Live, Live, had]
  refine
    { nextIndex := h.nextIndex.trans hnx.ge
      inScope := h.inScope
      live := fun addr ha => hlv.mpr (h.live addr (hg addr ha))
      owns := fun addr ha => ?_
      undoable := fun addr ha => ?_
      kept := by
        rw [hss, hdl]
        exact h.kept
      nodup := hnd
      joined := fun addr hm => hlv.mpr (h.joined addr (hj hm)) }
  · have how := h.owns addr (hlv.mp ha)
    rw [objectStore, hss, hhp, hnx]
    exact how
  · exact (h.undoable addr ha).frame rfl (congrFun hss addr)
      (fun idx _ => congrFun hhp idx) hnx.ge (hun addr _)

/-- A step that leaves the stores and indexes as they are and changes what is registered,
listed and remembered. -/
theorem SchemaTracked.frame {after} (h : SchemaTracked scr start now)
    (hss : after.stores = now.stores) (hnt : after.nextStore = now.nextStore)
    (hhp : after.heap = now.heap) (hnx : after.nextIndex = now.nextIndex)
    (hmx : after.databaseInfo.maxObjectStoreID = now.databaseInfo.maxObjectStoreID)
    (htr : after.transaction = { now.transaction with
      objectStores := after.transaction.objectStores
      deletedObjectStores := after.transaction.deletedObjectStores })
    (ht : after.TablesAgree) (hl : after.Listed)
    (hj : ∀ addr, after.Registered addr → addr ∈ after.transaction.objectStores)
    (hdl : ∀ name addr, after.transaction.deletedObjectStores.lookup name = some addr →
      start.objectStoresByName.lookup name = some addr) : SchemaTracked scr start after := by
  obtain ⟨_, _, _, _, _, _, _, txn⟩ := after
  cases hss
  cases hnt
  cases hhp
  cases hnx
  cases txn
  cases htr
  exact { h with
    tables := ht
    maxObjectStoreID := fun oth ho => hmx ▸ h.maxObjectStoreID oth ho
    listed := hl
    joined := hj
    deletedObjectStores := hdl }

/-- The store with an identifier is taken out of the tables, the description and the list of the
transaction. -/
structure Unregisters (now after : MemoryIDBBackingStore Key Value) (identifier : Nat)
    (address : Address) : Prop where
  registered : now.objectStoresByIdentifier.lookup identifier = some address
  objectStoreMap : after.databaseInfo.objectStoreMap =
    now.databaseInfo.objectStoreMap.erase identifier
  maxObjectStoreID : after.databaseInfo.maxObjectStoreID = now.databaseInfo.maxObjectStoreID
  objectStoresByIdentifier : after.objectStoresByIdentifier =
    now.objectStoresByIdentifier.erase identifier
  objectStoresByName : after.objectStoresByName =
    now.objectStoresByName.erase (now.stores address).info.name
  stores : after.stores = now.stores
  nextStore : after.nextStore = now.nextStore
  heap : after.heap = now.heap
  nextIndex : after.nextIndex = now.nextIndex
  transaction : after.transaction =
    { now.transaction with objectStores := now.transaction.objectStores.erase address }

namespace Unregisters

variable (h : Unregisters now after ident addr)
include h

section

omit [IDBKeyData Key]

theorem lookup_of_lookup {oth}
    {ident'} (hlk : after.objectStoresByIdentifier.lookup ident' = some oth) :
    ident' ≠ ident ∧ now.objectStoresByIdentifier.lookup ident' = some oth := by
  rw [h.objectStoresByIdentifier, lookup_erase_eq] at hlk
  split at hlk
  · cases hlk
  · exact ⟨‹_›, hlk⟩

theorem registered_of_registered {oth} (ho : after.Registered oth) : now.Registered oth := by
  obtain ⟨ident', hlk⟩ := ho
  exact ⟨ident', (h.lookup_of_lookup hlk).2⟩

/-- The store that is taken out is not registered any more, the others are. -/
theorem registered_iff (ht : now.TablesAgree)
    {oth} : after.Registered oth ↔ now.Registered oth ∧ oth ≠ addr := by
  have hid := (ht.byIdentifier ident addr h.registered).1
  constructor
  · rintro ⟨ident', hlk⟩
    obtain ⟨hne, hn⟩ := h.lookup_of_lookup hlk
    refine ⟨⟨ident', hn⟩, ?_⟩
    rintro rfl
    exact hne ((ht.byIdentifier ident' oth hn).1.symm.trans hid)
  · rintro ⟨⟨ident', hn⟩, hne⟩
    refine ⟨ident', ?_⟩
    rw [h.objectStoresByIdentifier, lookup_erase_eq, if_neg, hn]
    rintro rfl
    rw [h.registered] at hn
    exact hne (some.inj hn).symm

end

theorem tracked (htk : Tracked scr start.Registered start now) :
    Tracked scr start.Registered start after := by
  apply htk.frame h.stores h.heap h.nextIndex fun _ => h.registered_of_registered
  all_goals rw [h.transaction]
  · exact fun _ _ => ⟨rfl, rfl, rfl, rfl, rfl, fun _ _ => rfl⟩
  · exact htk.nodup.erase _
  · exact erase_subset

omit [IDBKeyData Key] in
theorem tablesAgree (ht : now.TablesAgree) : after.TablesAgree := by
  have hid := ht.byIdentifier ident addr h.registered
  refine ⟨fun name oth hnm => ?_, fun ident' oth ho => ?_⟩
  · rw [h.objectStoresByName, lookup_erase_eq] at hnm
    split at hnm
    · cases hnm
    case isFalse hne =>
      obtain ⟨hlt, hnm', hlk⟩ := ht.byName name oth hnm
      rw [h.nextStore, h.stores, h.objectStoresByIdentifier, lookup_erase_eq]
      refine ⟨hlt, hnm', ?_⟩
      rw [if_neg, hlk]
      intro heq
      rw [heq, h.registered] at hlk
      exact hne (by rw [some.inj hlk, hnm'])
  · obtain ⟨hne, hn⟩ := h.lookup_of_lookup ho
    obtain ⟨hid', hnm⟩ := ht.byIdentifier ident' oth hn
    rw [h.stores, h.objectStoresByName, lookup_erase_eq]
    refine ⟨hid', ?_⟩
    rw [if_neg, hnm]
    intro heq
    rw [heq, hid.2] at hnm
    exact hne (by rw [← hid', ← hid.1, some.inj hnm])

theorem schemaTracked (hsh : SchemaTracked scr start now) : SchemaTracked scr start after := by
  apply hsh.frame h.stores h.nextStore h.heap h.nextIndex h.maxObjectStoreID
  · rw [h.transaction]
  · exact h.tablesAgree hsh.tables
  · intro ident'
    rw [h.objectStoreMap, h.objectStoresByIdentifier, lookup_erase_eq, lookup_erase_eq, h.stores]
    split
    · rfl
    · exact hsh.listed ident'
  · intro oth ho
    obtain ⟨hn, hne⟩ := (h.registered_iff hsh.tables).mp ho
    rw [h.transaction]
    exact (mem_erase_of_ne hne).mpr (hsh.joined oth hn)
  · rw [h.transaction]
    exact hsh.deletedObjectStores

end Unregisters

/-- The first deleted store of each name is remembered. -/
structure Remembers (now after : MemoryIDBBackingStore Key Value) (address : Address) : Prop where
  databaseInfo : after.databaseInfo = now.databaseInfo
  objectStoresByIdentifier : after.objectStoresByIdentifier = now.objectStoresByIdentifier
  objectStoresByName : after.objectStoresByName = now.objectStoresByName
  stores : after.stores = now.stores
  nextStore : after.nextStore = now.nextStore
  heap : after.heap = now.heap
  nextIndex : after.nextIndex = now.nextIndex
  transaction : after.transaction =
    { now.transaction with deletedObjectStores := after.transaction.deletedObjectStores }
  deletedObjectStores : ∀ name, after.transaction.deletedObjectStores.lookup name =
    if name = (now.stores address).info.name ∧
      now.transaction.deletedObjectStores.lookup name = none then some address
    else now.transaction.deletedObjectStores.lookup name

namespace Remembers

theorem tracked (h : Remembers now after addr) (htk : Tracked scr start.Registered start now) :
    Tracked scr start.Registered start after := by
  apply htk.frame h.stores h.heap h.nextIndex
  · intro oth ho
    rw [Registered, h.objectStoresByIdentifier] at ho
    exact ho
  all_goals rw [h.transaction]
  · exact fun _ _ => ⟨rfl, rfl, rfl, rfl, rfl, fun _ _ => rfl⟩
  · exact htk.nodup
  · exact List.Subset.refl _

omit [IDBKeyData Key] in
/-- A remembered store is one that was remembered before or the deleted one. -/
theorem lookup_cases (h : Remembers now after addr) {name oth}
    (hlk : after.transaction.deletedObjectStores.lookup name = some oth) :
    now.transaction.deletedObjectStores.lookup name = some oth ∨
      name = (now.stores addr).info.name ∧ oth = addr ∧
        now.transaction.deletedObjectStores.lookup name = none := by
  rw [h.deletedObjectStores] at hlk
  split at hlk
  case isTrue hb => exact .inr ⟨hb.1, (some.inj hlk).symm, hb.2⟩
  case isFalse => exact .inl hlk

theorem schemaTracked (h : Remembers now after addr) (hsh : SchemaTracked scr start now)
    (hnm : now.transaction.deletedObjectStores.lookup (now.stores addr).info.name = none →
      start.objectStoresByName.lookup (now.stores addr).info.name = some addr) :
    SchemaTracked scr start after := by
  apply hsh.frame h.stores h.nextStore h.heap h.nextIndex
  · rw [h.databaseInfo]
  · rw [h.transaction]
  · constructor <;> rw [h.objectStoresByName, h.objectStoresByIdentifier, h.stores]
    · rw [h.nextStore]
      exact hsh.tables.byName
    · exact hsh.tables.byIdentifier
  · rw [Listed, h.databaseInfo, h.objectStoresByIdentifier, h.stores]
    exact hsh.listed
  · intro oth ho
    rw [Registered, h.objectStoresByIdentifier] at ho
    rw [h.transaction]
    exact hsh.joined oth ho
  · intro name oth hlk
    rcases h.lookup_cases hlk with hd | ⟨rfl, rfl, hno⟩
    · exact hsh.deletedObjectStores name oth hd
    · exact hnm hno

end Remembers

omit [IDBKeyData Key]

/-- The description of the deleted store is found by its name. -/
theorem objectStoreMap_deleteObjectStore (ht : now.TablesAgree) (hl : now.Listed)
    (hid : now.objectStoresByIdentifier.lookup ident = some addr) :
    now.databaseInfo.deleteObjectStore (now.stores addr).info.name =
      { now.databaseInfo with
        objectStoreMap := now.databaseInfo.objectStoreMap.erase ident } := by
  obtain ⟨hid', hnm⟩ := ht.byIdentifier ident addr hid
  have he {ident'} {info : IDBObjectStoreInfo}
      (hlk : now.databaseInfo.objectStoreMap.lookup ident' = some info)
      (hsm : info.name = (now.stores addr).info.name) : info.identifier = ident := by
    have hb := hl ident'
    rw [hlk, map_some, eq_comm, map_eq_some_iff] at hb
    obtain ⟨oth, ho, heq⟩ := hb
    obtain ⟨ho', hnm'⟩ := ht.byIdentifier ident' oth ho
    rw [(Prod.mk.inj heq).2, hsm, hnm] at hnm'
    rw [← (Prod.mk.inj heq).1, ← ho', ← some.inj hnm', hid']
  rw [IDBDatabaseInfo.deleteObjectStore]
  split
  case h_1 hno =>
    have hb := hl ident
    rw [hid, map_some, map_eq_some_iff] at hb
    obtain ⟨info, hio, heq⟩ := hb
    have hms := find?_eq_none.mp hno _ (lookup_eq_some_iff.mp hio)
    exact absurd (decide_eq_true (Prod.mk.inj heq).2) hms
  case h_2 ent hfn =>
    have hlk := lookup_eq_some_iff.mpr (mem_of_find?_eq_some hfn)
    have hsm := find?_some hfn
    rw [he hlk (of_decide_eq_true hsm)]

/-- Deleting a store takes it out, deletes its indexes and remembers it. -/
theorem deleteObjectStore_cases (ht : now.TablesAgree) (hl : now.Listed)
    (enum : Enumeration) (ident : Nat) :
    now.deleteObjectStore enum ident = now ∨
      ∃ addr rem, Unregisters now rem ident addr ∧
        Remembers (rem.withObjectStore ((rem.objectStore addr).deleteAllIndexes enum))
          (now.deleteObjectStore enum ident) addr := by
  rw [deleteObjectStore]
  split
  case h_2 => exact .inl rfl
  case h_1 info addr hio hid =>
    right
    have hio' := objectStoreMap_deleteObjectStore ht hl hid
    refine ⟨addr, { now with
      objectStoresByIdentifier := now.objectStoresByIdentifier.erase ident
      objectStoresByName := now.objectStoresByName.erase (now.stores addr).info.name
      databaseInfo := now.databaseInfo.deleteObjectStore (now.stores addr).info.name
      transaction := { now.transaction with
          objectStores := now.transaction.objectStores.erase addr } },
      ⟨hid, by rw [hio'], by rw [hio'], rfl, rfl, rfl, rfl, rfl, rfl, rfl⟩, ?_⟩
    exact ⟨rfl, rfl, rfl, rfl, rfl, rfl, rfl, rfl, fun name =>
      lookup_insert_if_new _ _ name _⟩

end

/-- The condition under which a request of a version change can be undone. A new store has an
identifier of its own, as the caller sees to. An index is not added to a store from the start. An
index of such a store is deleted only if no index of that name was deleted before and the store
had no undefined or null value at the start, and so is the store itself. A store that the
transaction has created is deleted only if one of the same name was deleted before. -/
def RevertibleSchema (script : Script Key Value) (start : MemoryIDBBackingStore Key Value)
    (enum : Enumeration) (now : MemoryIDBBackingStore Key Value) : Operation Key Value → Prop
  | .createObjectStore info => now.databaseInfo.maxObjectStoreID < info.identifier
  | .deleteObjectStore identifier =>
    ∀ address, now.objectStoresByIdentifier.lookup identifier = some address →
      (now.JoinedAtStart address → ∀ name index,
        (now.stores address).indexesByName.lookup name = some index →
          now.transaction.deletedIndexes.lookup name = none ∧ HasValues script start address) ∧
      (¬ now.JoinedAtStart address →
        now.transaction.deletedObjectStores.lookup (now.stores address).info.name ≠ none)
  | .createIndex info =>
    ∀ address, now.objectStoresByIdentifier.lookup info.objectStoreIdentifier = some address →
      now.JoinedAtStart address →
        Clashes script info (reached script ((now.objectStore address).records enum))
  | .deleteIndex identifier indexIdentifier =>
    ∀ address, now.objectStoresByIdentifier.lookup identifier = some address →
      now.JoinedAtStart address → ∀ index,
        (now.stores address).indexesByIdentifier.lookup indexIdentifier = some index →
          now.transaction.deletedIndexes.lookup (now.heap index).info.name = none ∧
            HasValues script start address
  | operation => Revertible script enum now operation

/-- A version change that can be undone so far. -/
structure VersionChange (script : Script Key Value)
    (start now : MemoryIDBBackingStore Key Value) : Prop where
  tracked : Tracked script start.Registered start now
  schema : SchemaTracked script start now
  accounted : Accounted start now

namespace VersionChange

variable {enum : Enumeration} {st : ObjectStoreState Key Value}

omit [IDBKeyData Key] in
theorem accounted_withObjectStore (h : Accounted start now)
    (hc : Confined (now.objectStore addr) st) : Accounted start (now.withObjectStore st) := by
  intro oth ho
  have hsm : (now.withObjectStore st).transaction.deletedObjectStores =
      now.transaction.deletedObjectStores := hc.scope.deletedObjectStores
  rw [hsm]
  exact h oth ho

variable (h : VersionChange scr start now)
include h

/-- A method of a store that the transaction has created. -/
theorem withAddedStore (hst : Sound scr start) (hg : now.Registered addr)
    (had : ¬ start.Registered addr) (hc : Confined (now.objectStore addr) st) :
    VersionChange scr start (now.withObjectStore st) where
  tracked := h.tracked.withObjectStore hst hc (fun hsc => absurd hsc had)
    fun hsc => absurd hsc had
  schema := h.schema.withObjectStore h.tracked (h.tracked.live addr hg) hc
    (fun hsc => absurd hsc had) (fun hsc => absurd hsc had)
    fun hsc => absurd hsc had
  accounted := accounted_withObjectStore h.accounted hc

/-- Deleting indexes of a store from the start. -/
theorem withStrippedStore (hst : Sound scr start)
    (ha : start.Registered addr) (hsr : Strips (now.objectStore addr) st)
    (hv : (∃ name idx, (now.stores addr).indexesByName.lookup name = some idx ∧
      st.store.indexesByName.lookup name = none) → HasValues scr start addr) :
    VersionChange scr start (now.withObjectStore st) where
  tracked := h.tracked.withObjectStore hst hsr.confined
    (fun _ => hsr.undoable scr _ (h.tracked.undoable addr ha))
    fun _ => hsr.kept
  schema := h.schema.strips h.tracked ha hsr hv
  accounted := accounted_withObjectStore h.accounted hsr.confined

/-- A request to the store with an identifier. -/
theorem onObjectStore {ident method}
    (hmt : ∀ addr, now.objectStoresByIdentifier.lookup ident = some addr →
      VersionChange scr start (now.withObjectStore (method (now.objectStore addr)))) :
    VersionChange scr start (now.onObjectStore ident method) := by
  rw [MemoryIDBBackingStore.onObjectStore]
  split
  · exact h
  · exact hmt _ ‹_›

variable (hst : Sound scr start)
include hst

theorem createObjectStore
    {info : IDBObjectStoreInfo} (hid : now.databaseInfo.maxObjectStoreID < info.identifier) :
    VersionChange scr start (now.createObjectStore info) := by
  by_cases hnm : now.databaseInfo.hasObjectStore info.name = true
  · rw [MemoryIDBBackingStore.createObjectStore, if_pos hnm]
    exact h
  · have hcr := createsStore_createObjectStore hnm
    refine ⟨hcr.tracked hst h.schema h.tracked, hcr.schemaTracked hst h.schema h.tracked
      hnm hid, hcr.accounted h.accounted ?_⟩
    cases hlk : now.objectStoresByIdentifier.lookup info.identifier with
    | none => rfl
    | some addr =>
      have hle := h.schema.maxObjectStoreID addr (h.tracked.live addr ⟨_, hlk⟩)
      rw [(h.schema.tables.byIdentifier _ addr hlk).1] at hle
      exact absurd hid (Nat.not_lt.mpr hle)

theorem createIndex {info} (hrv : RevertibleSchema scr start enum now (.createIndex info)) :
    VersionChange scr start (now.perform scr enum (.createIndex info)) := by
  rw [perform]
  apply h.onObjectStore
  intro addr hlk
  have hg : now.Registered addr := ⟨_, hlk⟩
  have how := h.tracked.owns addr (h.tracked.live addr hg)
  by_cases hsc : start.Registered addr
  · have hj := (h.schema.joinedAtStart_iff hst h.tracked hg).mpr hsc
    rw [createIndex_of_clashes enum (hrv addr hlk hj), withObjectStore_objectStore]
    exact h
  · exact h.withAddedStore hst hg hsc (confined_createIndex how info)

theorem deleteIndex
    {ident idxId} (hrv : RevertibleSchema scr start enum now (.deleteIndex ident idxId)) :
    VersionChange scr start
      (now.perform scr enum (.deleteIndex ident idxId)) := by
  rw [perform]
  apply h.onObjectStore
  intro addr hlk
  have hg : now.Registered addr := ⟨_, hlk⟩
  have how := h.tracked.owns addr (h.tracked.live addr hg)
  by_cases hsc : start.Registered addr
  · have hj := (h.schema.joinedAtStart_iff hst h.tracked hg).mpr hsc
    have hsf := hrv addr hlk hj
    have hwf := (h.tracked.undoable addr hsc).wellFormed
    refine h.withStrippedStore hst hsc (strips_deleteIndex hwf how
      (h.schema.onlyDeleted hst hsc) fun idx hi => (hsf idx hi).1) ?_
    rintro ⟨name, idx, hn, haf⟩
    rcases deleteIndex_cases hwf idxId with hsm | ⟨oth, ho, -⟩
    · rw [hsm] at haf
      change (now.stores addr).indexesByName.lookup name = none at haf
      rw [hn] at haf
      cases haf
    · exact (hsf oth ho).2
  · exact h.withAddedStore hst hg hsc (confined_deleteIndex how idxId)

/-- The store that is taken out, with its indexes deleted. -/
theorem strippedStore {rem : MemoryIDBBackingStore Key Value} {ident}
    (hrv : RevertibleSchema scr start enum now (.deleteObjectStore ident))
    (hrm : Unregisters now rem ident addr) :
    Confined (rem.objectStore addr)
        ((rem.objectStore addr).deleteAllIndexes enum) ∧
      Tracked scr start.Registered start (rem.withObjectStore
        ((rem.objectStore addr).deleteAllIndexes enum)) ∧
      SchemaTracked scr start (rem.withObjectStore
        ((rem.objectStore addr).deleteAllIndexes enum)) := by
  have htk := hrm.tracked h.tracked
  have hsh := hrm.schemaTracked h.schema
  have hg : now.Registered addr := ⟨ident, hrm.registered⟩
  have hlv : Live start rem addr := by
    rw [Live, hrm.transaction]
    exact h.tracked.live addr hg
  have how := htk.owns addr hlv
  have hc : Confined (rem.objectStore addr)
      ((rem.objectStore addr).deleteAllIndexes enum) :=
    confined_deleteAllIndexes how
  refine ⟨hc, ?_⟩
  by_cases hsc : start.Registered addr
  · have hj := (h.schema.joinedAtStart_iff hst h.tracked hg).mpr hsc
    have hsf := (hrv addr hrm.registered).1 hj
    rw [← hrm.stores] at hsf
    have hsr := strips_deleteAllIndexes (htk.undoable addr hsc).wellFormed how
      (hsh.onlyDeleted hst hsc) (fun name idx hnm => by
        rw [objectStore, hrm.transaction]
        exact (hsf name idx hnm).1) enum
    refine ⟨htk.withObjectStore hst hc (fun _ => hsr.undoable scr _ (htk.undoable addr hsc))
      fun _ => hsr.kept, hsh.strips htk hsc hsr ?_⟩
    rintro ⟨name, idx, hn, -⟩
    exact (hsf name idx hn).2
  · exact ⟨htk.withObjectStore hst hc (fun hsc' => absurd hsc' hsc)
      fun hsc' => absurd hsc' hsc, hsh.withObjectStore htk hlv hc
        (fun hsc' => absurd hsc' hsc) (fun hsc' => absurd hsc' hsc)
        fun hsc' => absurd hsc' hsc⟩

theorem deleteObjectStore {ident}
    (hrv : RevertibleSchema scr start enum now (.deleteObjectStore ident)) :
    VersionChange scr start (now.deleteObjectStore enum ident) := by
  rcases deleteObjectStore_cases h.schema.tables h.schema.listed enum ident with
    hsm | ⟨addr, rem, hrm, hrb⟩
  · rw [hsm]
    exact h
  obtain ⟨hc, htk, hsh⟩ := h.strippedStore hst hrv hrm
  have hnm : ((rem.withObjectStore ((rem.objectStore addr).deleteAllIndexes
      enum)).stores addr).info.name = (now.stores addr).info.name := by
    rw [(info_withObjectStore hc addr).1, hrm.stores]
  have hdl : (rem.withObjectStore ((rem.objectStore addr).deleteAllIndexes
      enum)).transaction.deletedObjectStores = now.transaction.deletedObjectStores := by
    refine hc.scope.deletedObjectStores.trans ?_
    rw [objectStore, hrm.transaction]
  have hg : now.Registered addr := ⟨ident, hrm.registered⟩
  have hsn (hsc : start.Registered addr) :
      start.objectStoresByName.lookup (now.stores addr).info.name = some addr := by
    obtain ⟨ident', hlk⟩ := id hsc
    rw [h.schema.name addr hsc]
    exact (hst.byIdentifier ident' addr hlk).2
  have haf := hrb.deletedObjectStores
  rw [hnm, hdl] at haf
  refine ⟨hrb.tracked htk, hrb.schemaTracked hsh fun hno => ?_, fun oth ho => ?_⟩
  · rw [hnm, hdl] at hno
    rw [hnm]
    apply hsn
    by_contra hsc
    exact (hrv addr hrm.registered).2
      (fun hj => hsc ((h.schema.joinedAtStart_iff hst h.tracked hg).mp hj))
      hno
  · rw [haf]
    by_cases heq : oth = addr
    · subst heq
      right
      rw [← h.schema.name oth ho]
      cases hlk : now.transaction.deletedObjectStores.lookup (now.stores oth).info.name with
      | none => exact if_pos ⟨rfl, rfl⟩
      | some first =>
        have hf := h.schema.deletedObjectStores _ first hlk
        rw [hsn ho] at hf
        rw [if_neg (by simp), some.inj hf]
    · rcases h.accounted oth ho with hn | hd
      · left
        rw [Registered, hrb.objectStoresByIdentifier]
        exact (hrm.registered_iff h.schema.tables).mpr ⟨hn, heq⟩
      · right
        rw [if_neg, hd]
        rintro ⟨-, hno⟩
        rw [hd] at hno
        cases hno

/-- A change of records. -/
theorem perform_changesRecords {op : Operation Key Value} (hch : op.changesRecords = true)
    (hrv : Revertible scr enum now op) : VersionChange scr start (now.perform scr enum op) := by
  obtain ⟨ht, htk⟩ := h.tracked.perform_changesRecords hst
    (fun addr hg hsc =>
      (h.schema.joinedAtStart_iff hst h.tracked hg).mpr hsc) hch hrv
  refine ⟨htk, h.schema.keepsTables h.tracked ht, ?_⟩
  intro addr ha
  rw [Registered, ht.objectStoresByIdentifier, ht.scope.deletedObjectStores]
  exact h.accounted addr ha

/-- One request of a version change. -/
theorem perform (op : Operation Key Value) (hrv : RevertibleSchema scr start enum now op) :
    VersionChange scr start (now.perform scr enum op) := by
  cases op with
  | createObjectStore info => exact h.createObjectStore hst hrv
  | deleteObjectStore ident => exact h.deleteObjectStore hst hrv
  | createIndex info => exact h.createIndex hst hrv
  | deleteIndex ident idxId => exact h.deleteIndex hst hrv
  | clearObjectStore ident => exact h.perform_changesRecords hst rfl hrv
  | putOrAdd ident request => exact h.perform_changesRecords hst rfl hrv
  | deleteRange ident rng => exact h.perform_changesRecords hst rfl hrv

theorem performAll (run : List (Enumeration × Operation Key Value))
    (hu : BeforeEach scr (RevertibleSchema scr start) now run) :
    VersionChange scr start (now.performAll scr run) := by
  induction run generalizing now with
  | nil => exact h
  | cons first rest ih =>
    obtain ⟨enum, op⟩ := first
    exact ih (h.perform hst op hu.1) hu.2

end VersionChange

end MemoryIDBBackingStore

end QtWebKit.IndexedDB
