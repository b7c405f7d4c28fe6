import QtWebKit.IndexedDB.Ownership

/-! # A transaction and its abort

`Tracked` relates the state at the start of a transaction to the state at any later
point of it: the stores in its scope are `Undoable` and no store lists an index of
another one. Requests keep the relation, and the abort replays one store after the
other without disturbing the rest. -/

namespace QtWebKit.IndexedDB

open Lib List Function

variable {Key Value : Type} [IDBKeyData Key] {scr : Script Key Value}

namespace MemoryIDBBackingStore

open MemoryBackingStoreTransaction ObjectStoreState

variable {start now after : MemoryIDBBackingStore Key Value} {scope : Address → Prop}

variable (backing : MemoryIDBBackingStore Key Value)

/-- The stores that requests can name. -/
def Registered (address : Address) : Prop :=
  ∃ identifier, backing.objectStoresByIdentifier.lookup identifier = some address

/-- The two tables of stores list the same stores, under their own names and identifiers. -/
structure TablesAgree (backing : MemoryIDBBackingStore Key Value) : Prop where
  byName : ∀ name address, backing.objectStoresByName.lookup name = some address →
    address < backing.nextStore ∧ (backing.stores address).info.name = name ∧
      backing.objectStoresByIdentifier.lookup (backing.stores address).info.identifier =
        some address
  byIdentifier : ∀ identifier address,
    backing.objectStoresByIdentifier.lookup identifier = some address →
      (backing.stores address).info.identifier = identifier ∧
        backing.objectStoresByName.lookup (backing.stores address).info.name = some address

/-- The state between two transactions: the tables of stores and the tables of each store agree,
an index belongs to the one store that lists it, and it mirrors the records of that store. -/
structure Sound (script : Script Key Value) (backing : MemoryIDBBackingStore Key Value) : Prop
    extends TablesAgree backing where
  wellFormed : ∀ address, backing.Registered address → (backing.objectStore address).WellFormed
  indexStore : ∀ address, backing.Registered address → ∀ index,
    (backing.objectStore address).Registered index →
      (backing.heap index).objectStore = address
  mirrors : ∀ address, backing.Registered address → (backing.objectStore address).Mirrors script

theorem Sound.ownsIndexes (h : Sound scr start) {addr}
    (ha : start.Registered addr) : (start.objectStore addr).OwnsIndexes := by
  have hwf := h.wellFormed addr ha
  have hg {idx} (hi : (start.objectStore addr).Registered idx) :
      idx < start.nextIndex ∧ (start.heap idx).objectStore = addr := by
    obtain ⟨name, hnm⟩ := hi
    exact ⟨(hwf.byName name idx hnm).1, h.indexStore addr ha idx ⟨name, hnm⟩⟩
  rintro idx (hi | ⟨ident, hid⟩)
  · exact hg hi
  · exact hg ⟨_, (hwf.byIdentifier ident idx hid).2⟩

/-- The stores from before the transaction and those it has created. -/
def Live (start now : MemoryIDBBackingStore Key Value) (address : Address) : Prop :=
  start.Registered address ∨ address ∈ now.transaction.versionChangeAddedObjectStores

structure Tracked (script : Script Key Value) (scope : Address → Prop)
    (start now : MemoryIDBBackingStore Key Value) : Prop where
  nextIndex : start.nextIndex ≤ now.nextIndex
  inScope : ∀ address, scope address → start.Registered address
  live : ∀ address, now.Registered address → Live start now address
  owns : ∀ address, Live start now address → (now.objectStore address).OwnsIndexes
  undoable : ∀ address, scope address →
    Undoable script (start.objectStore address) (now.objectStore address)
  kept : ∀ address, scope address → ∀ name index,
    (start.stores address).indexesByName.lookup name = some index →
      (now.stores address).indexesByName.lookup name = some index ∨
        now.transaction.deletedIndexes.lookup name = some index
  nodup : now.transaction.objectStores.Nodup
  joined : ∀ address ∈ now.transaction.objectStores, Live start now address

section

omit [IDBKeyData Key]

theorem objectStore_withObjectStore
    {st : ObjectStoreState Key Value} {addr} (h : st.address = addr) :
    (backing.withObjectStore st).objectStore addr = st := by
  subst h
  rw [objectStore, withObjectStore]
  dsimp only
  rw [update_self]

theorem stores_withObjectStore_of_ne
    {st : ObjectStoreState Key Value} {addr} (h : addr ≠ st.address) :
    (backing.withObjectStore st).stores addr = backing.stores addr :=
  update_of_ne h _ _

/-- An index of a store is not one of another store. -/
theorem foreign_of_ne {addr oth} (ho : oth ≠ addr) {idx}
    (hlt : idx < now.nextIndex) (how : (now.heap idx).objectStore = oth) :
    (now.objectStore addr).Foreign idx :=
  ⟨hlt, fun heq => ho (how.symm.trans heq)⟩

end

section

variable {addr : Address} {st : ObjectStoreState Key Value}

omit [IDBKeyData Key] in
/-- A method of one store, seen from another. -/
theorem ownsIndexes_withObjectStore (hc : Confined (now.objectStore addr) st)
    {oth} (hon : (now.objectStore oth).OwnsIndexes) :
    ((now.withObjectStore st).objectStore oth).OwnsIndexes := by
  have ha : st.address = addr := hc.address
  by_cases ho : oth = addr
  · rw [ho, objectStore_withObjectStore now ha]
    exact hc.owns
  · intro idx hi
    have hs := stores_withObjectStore_of_ne now (by rwa [ha])
    have hkn : (now.objectStore oth).Knows idx := by
      rw [Knows, ObjectStoreState.Registered] at hi ⊢
      change (∃ name, ((now.withObjectStore st).stores oth).indexesByName.lookup name =
        some idx) ∨ (∃ ident, ((now.withObjectStore st).stores
          oth).indexesByIdentifier.lookup ident = some idx) at hi
      rw [hs] at hi
      exact hi
    obtain ⟨hlt, how⟩ := hon idx hkn
    refine ⟨hlt.trans_le hc.nextIndex, ?_⟩
    exact (hc.indexStore idx hlt).trans how

omit [IDBKeyData Key] in
theorem live_withObjectStore (hc : Confined (now.objectStore addr) st)
    {oth} : Live start (now.withObjectStore st) oth ↔ Live start now oth := by
  rw [Live, Live]
  change _ ∨ oth ∈ st.transaction.versionChangeAddedObjectStores ↔ _
  rw [hc.scope.versionChangeAddedObjectStores]
  rfl

/-- One method of one store. -/
theorem Tracked.withObjectStore (h : Tracked scr scope start now) (hst : Sound scr start)
    (hc : Confined (now.objectStore addr) st)
    (hu : scope addr → Undoable scr (start.objectStore addr) st)
    (hk : scope addr → ∀ name idx, (now.stores addr).indexesByName.lookup name = some idx →
        st.store.indexesByName.lookup name = some idx ∨
          st.transaction.deletedIndexes.lookup name = some idx) :
    Tracked scr scope start (now.withObjectStore st) := by
  have ha : st.address = addr := hc.address
  have ho {oth} (ho : oth ≠ addr) :
      (now.withObjectStore st).stores oth = now.stores oth :=
    stores_withObjectStore_of_ne now (by rwa [ha])
  refine
    { nextIndex := h.nextIndex.trans hc.nextIndex
      inScope := h.inScope
      live := fun oth hg =>
        (live_withObjectStore hc).mpr (h.live oth hg)
      owns := fun oth hlv => ownsIndexes_withObjectStore hc
        (h.owns oth ((live_withObjectStore hc).mp hlv))
      undoable := fun oth hsc => ?_
      kept := fun oth hsc name idx hnm => ?_
      nodup := hc.scope.objectStores ▸ h.nodup
      joined := fun oth hm => ?_ }
  · by_cases heq : oth = addr
    · subst heq
      rw [objectStore_withObjectStore now ha]
      exact hu hsc
    · have hf (idx) (hi : (start.objectStore oth).Registered idx) :
          (now.objectStore addr).Foreign idx := by
        obtain ⟨name, hnm⟩ := hi
        have hlt := ((hst.wellFormed oth (h.inScope oth hsc)).byName name idx hnm).1
        exact foreign_of_ne heq (hlt.trans_le h.nextIndex)
          ((h.undoable oth hsc).indexStore idx ⟨name, hnm⟩)
      exact (h.undoable oth hsc).frame rfl (ho heq)
        (fun idx hi => hc.foreign idx (hf idx hi)) hc.nextIndex
        ((hc.undo oth heq).mono hf)
  · by_cases heq : oth = addr
    · subst heq
      have hso : (now.withObjectStore st).stores oth = st.store := by
        rw [← ha]
        exact update_self _ _ _
      rw [hso]
      rcases h.kept oth hsc name idx hnm with hn | hd
      · exact hk hsc name idx hn
      · exact .inr (hc.deletedIndexes name idx hd)
    · rw [ho heq]
      exact (h.kept oth hsc name idx hnm).imp_right (hc.deletedIndexes name idx)
  · rw [live_withObjectStore hc]
    have hsm : st.transaction.objectStores = now.transaction.objectStores :=
      hc.scope.objectStores
    apply h.joined
    rw [← hsm]
    exact hm

/-- A method that leaves the tables of indexes alone, on the store with an identifier. -/
theorem Tracked.onObjectStore (h : Tracked scr scope start now) (hst : Sound scr start)
    {ident method} (hmt : ∀ st : ObjectStoreState Key Value, st.OwnsIndexes →
      RecordsOnly st (method st))
    (hu : ∀ addr, now.objectStoresByIdentifier.lookup ident = some addr →
      scope addr → Undoable scr (start.objectStore addr) (method (now.objectStore addr))) :
    Tracked scr scope start (now.onObjectStore ident method) := by
  rw [MemoryIDBBackingStore.onObjectStore]
  split
  · exact h
  case h_2 addr hlk =>
    have hrs := hmt _ (h.owns addr (h.live addr ⟨ident, hlk⟩))
    refine h.withObjectStore hst hrs.confined (hu addr hlk)
      fun _ name idx hnm => .inl ?_
    rw [hrs.indexesByName]
    exact hnm

end

section

/-- The transaction has begun and the given stores have joined it. -/
structure Begun (isVersionChange : Bool) (addresses : List Address)
    (start now : MemoryIDBBackingStore Key Value) : Prop where
  databaseInfo : now.databaseInfo = start.databaseInfo
  objectStoresByIdentifier : now.objectStoresByIdentifier = start.objectStoresByIdentifier
  objectStoresByName : now.objectStoresByName = start.objectStoresByName
  stores : ∀ address, ∃ writeTransaction, now.stores address =
    { start.stores address with writeTransaction := writeTransaction }
  nextStore : now.nextStore = start.nextStore
  heap : now.heap = start.heap
  nextIndex : now.nextIndex = start.nextIndex
  transaction : now.transaction =
    { start.newTransaction isVersionChange with
      objectStores := now.transaction.objectStores
      originalKeyGenerators := now.transaction.originalKeyGenerators }
  objectStores : ∀ address, address ∈ now.transaction.objectStores ↔ address ∈ addresses
  nodup : now.transaction.objectStores.Nodup
  originalKeyGenerators : ∀ address, now.transaction.originalKeyGenerators.lookup address =
    if address ∈ addresses then some (start.stores address).keyGeneratorValue else none

variable {isVersionChange : Bool} {addresses : List Address}

section

omit [IDBKeyData Key]

theorem begun_newTransaction (start : MemoryIDBBackingStore Key Value) (isVersionChange : Bool) :
    Begun isVersionChange [] start
      { start with transaction := start.newTransaction isVersionChange } where
  databaseInfo := rfl
  objectStoresByIdentifier := rfl
  objectStoresByName := rfl
  stores _ := ⟨_, rfl⟩
  nextStore := rfl
  heap := rfl
  nextIndex := rfl
  transaction := rfl
  objectStores _ := Iff.rfl
  nodup := nodup_nil
  originalKeyGenerators _ := rfl

/-- One more store joins. -/
theorem Begun.addExistingObjectStore (h : Begun isVersionChange addresses start now)
    (addr : Address) :
    Begun isVersionChange (addresses ++ [addr]) start (now.addExistingObjectStore addr) := by
  have hgn : (now.stores addr).keyGeneratorValue =
      (start.stores addr).keyGeneratorValue := by
    obtain ⟨wtrans, hso⟩ := h.stores addr
    rw [hso]
  have hlk (oth) :
      (now.addExistingObjectStore addr).transaction.originalKeyGenerators.lookup oth = _ :=
    Table.lookup_insert_if_new now.transaction.originalKeyGenerators addr oth
      (now.stores addr).keyGeneratorValue
  refine
    { databaseInfo := h.databaseInfo
      objectStoresByIdentifier := h.objectStoresByIdentifier
      objectStoresByName := h.objectStoresByName
      stores := fun oth => ?_
      nextStore := h.nextStore
      heap := h.heap
      nextIndex := h.nextIndex
      transaction := ?_
      objectStores := fun oth => ?_
      nodup := List.Nodup.insert h.nodup
      originalKeyGenerators := fun oth => ?_ }
  · obtain ⟨wtrans, hso⟩ := h.stores oth
    by_cases heq : oth = addr
    · subst heq
      refine ⟨true, (update_self _ _ _).trans ?_⟩
      rw [hso]
    · exact ⟨wtrans, (update_of_ne heq _ _).trans hso⟩
  · rw [MemoryIDBBackingStore.addExistingObjectStore]
    dsimp only
    rw [h.transaction]
  · rw [MemoryIDBBackingStore.addExistingObjectStore]
    dsimp only
    rw [mem_insert_iff, h.objectStores, mem_append, mem_singleton, or_comm]
  · rw [hlk, hgn, h.originalKeyGenerators]
    by_cases heq : oth = addr
    · subst heq
      by_cases hm : oth ∈ addresses <;> simp [hm]
    · simp [heq]

theorem Begun.foldl (h : Begun isVersionChange addresses start now) (rest : List Address) :
    Begun isVersionChange (addresses ++ rest) start
      (rest.foldl MemoryIDBBackingStore.addExistingObjectStore now) := by
  induction rest generalizing addresses now with
  | nil =>
    rw [append_nil]
    exact h
  | cons first rest ih =>
    rw [append_cons]
    exact ih (h.addExistingObjectStore first)

theorem begun_beginTransaction (start : MemoryIDBBackingStore Key Value)
    (enum : Enumeration) (isVersionChange : Bool) (names : List String) :
    Begun isVersionChange (start.scope enum isVersionChange names) start
      (start.beginTransaction enum isVersionChange names) :=
  (begun_newTransaction start isVersionChange).foldl _

end

/-- At the start there is nothing to undo. -/
theorem Begun.undoable (h : Begun isVersionChange addresses start now) (hst : Sound scr start)
    {addr} (hg : start.Registered addr) (hm : addr ∈ addresses) :
    Undoable scr (start.objectStore addr) (now.objectStore addr) := by
  obtain ⟨wtrans, hso⟩ := h.stores addr
  have hwf := hst.wellFormed addr hg
  have hor (key) : (now.objectStore addr).original key = none := by
    rw [original, objectStore, h.transaction]
    rfl
  have hsv : (now.objectStore addr).saved = none := by
    rw [saved, objectStore, h.transaction]
    rfl
  have hrc : (now.objectStore addr).store.record =
      (start.objectStore addr).store.record := by
    rw [objectStore, hso]
    rfl
  have hix {idx} : (now.objectStore addr).Registered idx ↔
      (start.objectStore addr).Registered idx := by
    rw [ObjectStoreState.Registered, objectStore, hso]
    rfl
  refine
    { address := rfl
      isAborting := by rw [objectStore, h.transaction]; rfl
      wellFormed := ⟨?_, ?_, ?_⟩
      indexesByName := ?_
      indexInfo := fun idx _ => by rw [objectStore, h.heap]; rfl
      indexStore := fun idx hi => by
        rw [objectStore, h.heap]
        exact hst.indexStore addr hg idx hi
      keyGeneratorValue := ?_
      original := fun key val hv => by simp [hor] at hv
      base := fun key _ => by rw [undoBase, hsv, ← hrc]; rfl
      cleared := fun saved hse => by simp [hsv] at hse
      mirrors := fun _ => ⟨fun idx hi => ?_, fun idx _ => ?_⟩
      clearedMirrors := fun map hse => by simp [hsv] at hse }
  · rw [objectStore, hso, h.heap, h.nextIndex]
    exact hwf.byName
  · rw [objectStore, hso, h.heap]
    exact hwf.byIdentifier
  · rw [objectStore, hso]
    exact hwf.orderedKeys
  · rw [objectStore, hso]
    exact fun _ _ hnm => hnm
  · exact (h.originalKeyGenerators addr).trans (if_pos hm)
  · rw [hrc]
    rw [hix] at hi
    change (now.heap idx).Mirrors scr _
    rw [h.heap]
    exact hst.mirrors addr hg idx hi
  · rw [objectStore, h.transaction]
    rfl

theorem Begun.tracked (h : Begun isVersionChange addresses start now) (hst : Sound scr start)
    (had : ∀ addr ∈ addresses, start.Registered addr) :
    Tracked scr (· ∈ addresses) start now where
  nextIndex := h.nextIndex.ge
  inScope := had
  live addr := by
    rw [Registered, h.objectStoresByIdentifier]
    exact .inl
  owns addr hlv := by
    have hg : start.Registered addr := by
      rw [Live, h.transaction] at hlv
      exact hlv.resolve_right not_mem_nil
    obtain ⟨wtrans, hso⟩ := h.stores addr
    have hon := hst.ownsIndexes hg
    rw [objectStore, hso, h.heap, h.nextIndex]
    exact hon
  undoable addr hm := h.undoable hst (had addr hm) hm
  kept addr _ name idx hnm := by
    obtain ⟨wtrans, hso⟩ := h.stores addr
    rw [hso]
    exact .inl hnm
  nodup := h.nodup
  joined addr hm := .inl (had addr ((h.objectStores addr).mp hm))

/-- The scope of a transaction consists of registered stores. -/
theorem Sound.registered_of_mem_scope (hst : Sound scr start) {enum} {isVersionChange names addr}
    (h : addr ∈ start.scope enum isVersionChange names) : start.Registered addr := by
  rw [MemoryIDBBackingStore.scope] at h
  split at h
  · exact enum.mem_values.mp h
  · obtain ⟨⟨name, oth⟩, he, rfl⟩ := mem_map.mp h
    exact ⟨_, (hst.byName name oth (enum.mem_entries.mp (mem_filter.mp he).1)).2.2⟩

end

/-- A step that leaves all tables of stores and indexes alone. -/
structure KeepsTables (before after : MemoryIDBBackingStore Key Value) : Prop where
  databaseInfo : after.databaseInfo = before.databaseInfo
  objectStoresByIdentifier : after.objectStoresByIdentifier = before.objectStoresByIdentifier
  objectStoresByName : after.objectStoresByName = before.objectStoresByName
  nextStore : after.nextStore = before.nextStore
  nextIndex : before.nextIndex ≤ after.nextIndex
  info : ∀ address, (after.stores address).info = (before.stores address).info
  indexesByName : ∀ address,
    (after.stores address).indexesByName = (before.stores address).indexesByName
  indexesByIdentifier : ∀ address,
    (after.stores address).indexesByIdentifier = (before.stores address).indexesByIdentifier
  indexInfo : ∀ index < before.nextIndex, (after.heap index).info = (before.heap index).info
  indexStore : ∀ index < before.nextIndex,
    (after.heap index).objectStore = (before.heap index).objectStore
  scope : SameScope before.transaction after.transaction
  deletedIndexes : after.transaction.deletedIndexes = before.transaction.deletedIndexes

variable {pre middle : MemoryIDBBackingStore Key Value}

section

omit [IDBKeyData Key]

theorem KeepsTables.refl : KeepsTables backing backing :=
  ⟨rfl, rfl, rfl, rfl, le_rfl, fun _ => rfl, fun _ => rfl, fun _ => rfl, fun _ _ => rfl,
    fun _ _ => rfl, SameScope.refl _, rfl⟩

theorem KeepsTables.trans (h : KeepsTables pre middle) (h' : KeepsTables middle after) :
    KeepsTables pre after where
  databaseInfo := h'.databaseInfo.trans h.databaseInfo
  objectStoresByIdentifier := h'.objectStoresByIdentifier.trans h.objectStoresByIdentifier
  objectStoresByName := h'.objectStoresByName.trans h.objectStoresByName
  nextStore := h'.nextStore.trans h.nextStore
  nextIndex := h.nextIndex.trans h'.nextIndex
  info addr := (h'.info addr).trans (h.info addr)
  indexesByName addr := (h'.indexesByName addr).trans (h.indexesByName addr)
  indexesByIdentifier addr :=
    (h'.indexesByIdentifier addr).trans (h.indexesByIdentifier addr)
  indexInfo idx hi :=
    (h'.indexInfo idx (hi.trans_le h.nextIndex)).trans (h.indexInfo idx hi)
  indexStore idx hi :=
    (h'.indexStore idx (hi.trans_le h.nextIndex)).trans (h.indexStore idx hi)
  scope := h.scope.trans h'.scope
  deletedIndexes := h'.deletedIndexes.trans h.deletedIndexes

theorem keepsTables_withObjectStore {addr st} (h : RecordsOnly (now.objectStore addr) st) :
    KeepsTables now (now.withObjectStore st) := by
  have ha : st.address = addr := h.confined.address
  have hs (oth) : (now.withObjectStore st).stores oth =
      if oth = addr then st.store else now.stores oth := by
    rw [← ha]
    exact update_apply _ _ _ _
  refine ⟨rfl, rfl, rfl, rfl, h.confined.nextIndex, fun oth => ?_, fun oth => ?_, fun oth => ?_,
    h.confined.indexInfo, h.confined.indexStore, h.confined.scope, h.deletedIndexes⟩
  all_goals
    rw [hs]
    split
  · subst oth
    exact h.info
  · rfl
  · subst oth
    exact h.indexesByName
  · rfl
  · subst oth
    exact h.indexesByIdentifier
  · rfl

end

/-- The replay with the stores whose turn has not come. -/
structure Aborting (script : Script Key Value) (scope live : Address → Prop)
    (start : MemoryIDBBackingStore Key Value) (rest : List Address)
    (now : MemoryIDBBackingStore Key Value) : Prop where
  nextIndex : start.nextIndex ≤ now.nextIndex
  owns : ∀ address, live address → (now.objectStore address).OwnsIndexes
  pending : ∀ address ∈ rest, scope address →
    Restorable script (start.objectStore address) (now.objectStore address) ∧
      ¬ (now.objectStore address).ReplayConflicts script
  settled : ∀ address, scope address → address ∉ rest →
    Settled script (start.objectStore address) (now.objectStore address)

variable {live : Address → Prop} {rest : List Address} {addr : Address}

theorem Aborting.restoreObjectStore (h : Aborting scr scope live start (addr :: rest) now)
    (hst : Sound scr start) (hsc : ∀ addr, scope addr → start.Registered addr)
    (hlv : live addr) (hnt : addr ∉ rest) (enum : Enumeration) :
    KeepsTables now (now.restoreObjectStore scr enum addr) ∧
      Aborting scr scope live start rest
        (now.restoreObjectStore scr enum addr) := by
  have hrs : RecordsOnly (now.objectStore addr)
      ((now.objectStore addr).restoreRecords scr enum) :=
    recordsOnly_restoreRecords (h.owns addr hlv)
  have hc := hrs.confined
  have hs {oth} (ho : oth ≠ addr) :
      (now.restoreObjectStore scr enum addr).stores oth = now.stores oth :=
    stores_withObjectStore_of_ne now (by rwa [hc.address])
  have hvw : (now.restoreObjectStore scr enum addr).objectStore addr =
      (now.objectStore addr).restoreRecords scr enum :=
    objectStore_withObjectStore now hc.address
  -- the indexes of another store are out of reach
  have hf {oth : Address} (ho : oth ≠ addr) (ho' : scope oth)
      (how : ∀ idx, (start.objectStore oth).Registered idx →
        (now.heap idx).objectStore = oth) (idx : Address)
      (hi : (start.objectStore oth).Registered idx) :
      (now.objectStore addr).Foreign idx := by
    obtain ⟨name, hnm⟩ := hi
    have hlt := ((hst.wellFormed oth (hsc oth ho')).byName name idx hnm).1
    exact foreign_of_ne ho (hlt.trans_le h.nextIndex) (how idx ⟨name, hnm⟩)
  refine ⟨keepsTables_withObjectStore hrs, h.nextIndex.trans hc.nextIndex,
    fun oth ho => ownsIndexes_withObjectStore hc (h.owns oth ho),
    fun oth hm ho => ?_, fun oth ho hm => ?_⟩
  · have hne : oth ≠ addr := fun heq => hnt (heq ▸ hm)
    obtain ⟨hr, hcn⟩ := h.pending oth (mem_cons_of_mem _ hm) ho
    have hix := hf hne ho hr.indexStore
    have hun := hc.undo oth hne
    have hhp (idx) (hi : (start.objectStore oth).Registered idx) :=
      hc.foreign idx (hix idx hi)
    have hsm : SameStart (start.objectStore oth) (now.objectStore oth)
        ((now.restoreObjectStore scr enum addr).objectStore oth) :=
      ⟨rfl, hs hne, hc.nextIndex, fun idx hi => congrArg MemoryIndex.info (hhp idx hi), fun idx hi
        => congrArg MemoryIndex.objectStore (hhp idx hi), hun.originalKeyGenerators,
        hun.originalValues, hun.clearedKeyValueMaps, hun.clearedOrderedKeys⟩
    refine ⟨hr.frame hsm hun.isAborting hhp, ?_⟩
    rwa [hsm.replayConflicts_iff fun _ => hr.registered]
  · by_cases heq : oth = addr
    · subst heq
      obtain ⟨hr, hcn⟩ := h.pending oth mem_cons_self ho
      rw [hvw]
      exact hr.restoreRecords (hst.mirrors oth (hsc oth ho)) hcn enum
    · have hsl := h.settled oth ho (by simp [heq, hm])
      exact hsl.frame rfl (hs heq) hc.nextIndex fun idx hi =>
        hc.foreign idx (hf heq ho hsl.indexStore idx hi)

theorem Aborting.foldl (h : Aborting scr scope live start rest now)
    (hst : Sound scr start) (hsc : ∀ addr, scope addr → start.Registered addr)
    (hlv : ∀ addr ∈ rest, live addr) (hnd : rest.Nodup) (enum : Enumeration) :
    KeepsTables now (rest.foldl
      (fun backing addr => backing.restoreObjectStore scr enum addr) now) ∧
      Aborting scr scope live start [] (rest.foldl
        (fun backing addr => backing.restoreObjectStore scr enum addr) now) := by
  induction rest generalizing now with
  | nil => exact ⟨KeepsTables.refl now, h⟩
  | cons addr rest ih =>
    rw [forall_mem_cons] at hlv
    rw [nodup_cons] at hnd
    obtain ⟨ht, haf⟩ :=
      h.restoreObjectStore hst hsc hlv.1 hnd.1 enum
    obtain ⟨ht', hl⟩ := ih haf hlv.2 hnd.2
    exact ⟨ht.trans ht', hl⟩

section

omit [IDBKeyData Key]

/-- Putting back what the clears have saved of the indexes. -/
theorem heap_restoreClearedIndexes (enum : Enumeration) :
    (backing.restoreClearedIndexes enum).heap =
      backing.transaction.restoredIndex backing.heap := by
  funext idx
  have hfl := enum.foldl_update_entries
    (fun (idx : MemoryIndex Key) recs => idx.replaceIndexValueStore recs)
    backing.transaction.clearedIndexValueStores backing.heap idx
  rw [restoredIndex, restoreClearedIndexes]
  dsimp only
  rw [hfl]
  cases backing.transaction.clearedIndexValueStores.lookup idx <;> rfl

theorem restoredIndex_info (txn : MemoryBackingStoreTransaction Key Value)
    (heap : Address → MemoryIndex Key) (idx : Address) :
    (txn.restoredIndex heap idx).info = (heap idx).info ∧
    (txn.restoredIndex heap idx).objectStore = (heap idx).objectStore := by
  rw [restoredIndex]
  split <;> exact ⟨rfl, rfl⟩

theorem keepsTables_restoreClearedIndexes (enum : Enumeration) :
    KeepsTables backing (backing.restoreClearedIndexes enum) := by
  refine ⟨rfl, rfl, rfl, rfl, le_rfl, fun _ => rfl, fun _ => rfl, fun _ => rfl, fun idx _ => ?_,
    fun idx _ => ?_, SameScope.refl _, rfl⟩
  all_goals rw [heap_restoreClearedIndexes]
  · exact (restoredIndex_info _ _ idx).1
  · exact (restoredIndex_info _ _ idx).2

end

/-- The replay of an abort, once the stores are registered again. -/
theorem Tracked.replay (h : Tracked scr scope start now) (hst : Sound scr start)
    (hcn : ∀ addr, scope addr → ¬ (now.objectStore addr).ReplayConflicts scr)
    {reg : MemoryIDBBackingStore Key Value} (hs : reg.stores = now.stores)
    (hhp : reg.heap = now.heap) (hnx : reg.nextIndex = now.nextIndex)
    {objectStores : List Address} (htr : reg.transaction =
      { now.transaction with isAborting := true, objectStores := objectStores })
    (hj : ∀ addr, scope addr → addr ∈ objectStores)
    (hlv : ∀ addr ∈ objectStores, Live start now addr) (hnd : objectStores.Nodup)
    (enum : Enumeration) :
    let replayed := (enum.order objectStores).foldl
      (fun backing addr => backing.restoreObjectStore scr enum addr)
      (reg.restoreClearedIndexes enum)
    KeepsTables reg replayed ∧ Aborting scr scope (Live start now) start [] replayed := by
  have hp := enum.perm objectStores
  have hcl : (reg.restoreClearedIndexes enum).heap = now.transaction.restoredIndex now.heap := by
    rw [heap_restoreClearedIndexes, htr, hhp]
    rfl
  have hio (idx) :=
    (restoredIndex_info now.transaction now.heap idx)
  have hab : Aborting scr scope (Live start now) start (enum.order objectStores)
      (reg.restoreClearedIndexes enum) := by
    refine ⟨?_, fun addr ha => ?_, fun addr _ hsc => ?_, fun addr hsc hm => ?_⟩
    · exact h.nextIndex.trans hnx.ge
    · intro idx hi
      have hkn : (now.objectStore addr).Knows idx := by
        rw [Knows, ObjectStoreState.Registered] at hi ⊢
        change (∃ name, (reg.stores addr).indexesByName.lookup name = some idx) ∨
          (∃ ident, (reg.stores addr).indexesByIdentifier.lookup ident = some idx) at hi
        rw [hs] at hi
        exact hi
      obtain ⟨hlt, how⟩ := h.owns addr ha idx hkn
      refine ⟨hlt.trans_le hnx.ge, ?_⟩
      change ((reg.restoreClearedIndexes enum).heap idx).objectStore = addr
      rw [hcl, (hio idx).2]
      exact how
    · have hsm : SameStart (start.objectStore addr) (now.objectStore addr)
          ((reg.restoreClearedIndexes enum).objectStore addr) := by
        refine ⟨rfl, congrFun hs addr, hnx.ge, fun idx _ => ?_, fun idx _ => ?_, ?_, ?_, ?_, ?_⟩
        · change ((reg.restoreClearedIndexes enum).heap idx).info = _
          rw [hcl, (hio idx).1]
          rfl
        · change ((reg.restoreClearedIndexes enum).heap idx).objectStore = _
          rw [hcl, (hio idx).2]
          rfl
        all_goals
          rw [objectStore, restoreClearedIndexes, htr]
          rfl
      have hu := h.undoable addr hsc
      refine ⟨hu.restorable hsm ?_ fun idx _ => congrFun hcl idx, ?_⟩
      · rw [objectStore, restoreClearedIndexes, htr]
      · rw [hsm.replayConflicts_iff fun _ => hu.registered]
        exact hcn addr hsc
    · exact absurd (hp.mem_iff.mpr (hj addr hsc)) hm
  obtain ⟨ht, hl⟩ := hab.foldl hst h.inScope
    (fun addr hm => hlv addr (hp.mem_iff.mp hm)) (hp.nodup_iff.mpr hnd)
    enum
  exact ⟨(keepsTables_restoreClearedIndexes reg enum).trans ht, hl⟩

end MemoryIDBBackingStore

end QtWebKit.IndexedDB
