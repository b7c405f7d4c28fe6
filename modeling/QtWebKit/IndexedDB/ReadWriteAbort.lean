import QtWebKit.IndexedDB.TransactionUndo

/-! # Aborting a transaction that changes records

The requests that change records keep `Tracked` under a condition on the state
before them, so a run of them can be aborted: every store in the scope gets back
its records, its ordered keys, its key generator and the entries of its indexes. -/

namespace QtWebKit.IndexedDB

open Lib Option

variable {Key Value : Type} [IDBKeyData Key] {scr : Script Key Value}

/-- The requests that change records. -/
def Operation.changesRecords : Operation Key Value → Bool
  | .clearObjectStore _ | .putOrAdd _ _ | .deleteRange _ _ => true
  | _ => false

namespace ObjectStoreState

/-- The ordered keys of a store are those of its records. -/
theorem WellFormed.mem_orderedKeys {st : ObjectStoreState Key Value} (h : st.WellFormed)
    {key} : key ∈ st.store.orderedKeys.getD ∅ ↔ (st.store.record key).isSome = true := by
  rw [h.orderedKeys, MemoryObjectStore.record]
  cases st.store.keyValueStore with
  | none => simp
  | some map =>
    rw [map_some, getD_some, List.mem_toFinset, ← AList.mem_keys, ← AList.lookup_isSome, bind_some]

/-- A store has the keys, the values, the index entries and the key generator of another state
of it. -/
structure DataRestored (script : Script Key Value) (before after : ObjectStoreState Key Value) :
    Prop where
  record : after.store.record = before.store.record
  orderedKeys : after.store.orderedKeys.getD ∅ = before.store.orderedKeys.getD ∅
  indexes : ∀ index, before.Registered index →
    HoldsExactly script before.store.record (after.heap index)
  keyGeneratorValue : after.store.keyGeneratorValue = before.store.keyGeneratorValue

variable {pre now : ObjectStoreState Key Value}

theorem Settled.dataRestored (h : Settled scr pre now) (hb : pre.WellFormed)
    (hk : ∀ name idx, pre.store.indexesByName.lookup name = some idx →
      now.store.indexesByName.lookup name = some idx) : DataRestored scr pre now where
  record := h.record
  orderedKeys := by
    ext key
    rw [h.wellFormed.mem_orderedKeys, hb.mem_orderedKeys, h.record]
  indexes idx hi := by
    obtain ⟨name, hnm⟩ := hi
    rw [← h.record]
    exact holdsExactly_of_mirrors (h.mirrors idx ⟨name, hk name idx hnm⟩)
  keyGeneratorValue := h.keyGeneratorValue

end ObjectStoreState

namespace MemoryIDBBackingStore

open ObjectStoreState

variable {start now : MemoryIDBBackingStore Key Value} {scope : Address → Prop}

/-- The stores of the transaction that it has not created. -/
def JoinedAtStart (now : MemoryIDBBackingStore Key Value) (address : Address) : Prop :=
  address ∈ now.transaction.objectStores ∧
    address ∉ now.transaction.versionChangeAddedObjectStores

/-- The condition under which a change of records can be undone: what is overwritten or deleted
can be remembered, and no put is taken back while the indexes are still those to be kept. A clear
has to find a map to save, unless the store was cleared before. -/
def Revertible (script : Script Key Value) (enum : Enumeration)
    (now : MemoryIDBBackingStore Key Value) : Operation Key Value → Prop
  | .putOrAdd identifier request =>
    ∀ address, now.objectStoresByIdentifier.lookup identifier = some address →
      now.JoinedAtStart address → ∀ info,
      now.databaseInfo.infoForExistingObjectStore identifier = some info →
      ∀ key value generated,
        checkPut script info (now.objectStore address) request = .ok (key, value, generated) →
        (now.objectStore address).Recoverable key ∧ ((now.objectStore address).saved = none →
          ¬ (now.objectStore address).TakesBack script enum key value)
  | .deleteRange identifier range =>
    ∀ address, now.objectStoresByIdentifier.lookup identifier = some address →
      now.JoinedAtStart address → ∀ key, range.exactlyOneKey = some key →
        (now.objectStore address).Recoverable key
  | .clearObjectStore identifier =>
    ∀ address, now.objectStoresByIdentifier.lookup identifier = some address →
      now.JoinedAtStart address →
      (now.objectStore address).saved.isSome = true ∨
        (now.stores address).keyValueStore.isSome = true
  | _ => True

/-- Before each request of a run a condition holds. -/
def BeforeEach (script : Script Key Value)
    (condition : Enumeration → MemoryIDBBackingStore Key Value → Operation Key Value → Prop) :
    MemoryIDBBackingStore Key Value → List (Enumeration × Operation Key Value) → Prop
  | _, [] => True
  | now, (enum, operation) :: rest => condition enum now operation ∧
      BeforeEach script condition (now.perform script enum operation) rest

/-- A request that changes records and can be undone. -/
def RevertibleChange (script : Script Key Value) (enum : Enumeration)
    (now : MemoryIDBBackingStore Key Value) (operation : Operation Key Value) : Prop :=
  operation.changesRecords = true ∧ Revertible script enum now operation

section

variable {enum : Enumeration} {op : Operation Key Value}

/-- The method that a change of records calls. -/
theorem keepsTables_onObjectStore (h : Tracked scr scope start now) {ident method}
    (hm : ∀ st : ObjectStoreState Key Value, st.OwnsIndexes → RecordsOnly st (method st)) :
    KeepsTables now (now.onObjectStore ident method) := by
  rw [onObjectStore]
  split
  · exact KeepsTables.refl now
  case h_2 addr hlk =>
    exact keepsTables_withObjectStore
      (hm _ (h.owns addr (h.live addr ⟨ident, hlk⟩)))

theorem Tracked.perform_changesRecords (h : Tracked scr scope start now) (hst : Sound scr start)
    (hj : ∀ addr, now.Registered addr → scope addr → now.JoinedAtStart addr)
    (hc : op.changesRecords = true) (hrv : Revertible scr enum now op) :
    KeepsTables now (now.perform scr enum op) ∧
      Tracked scr scope start (now.perform scr enum op) := by
  cases op with
  | createObjectStore | deleteObjectStore | createIndex | deleteIndex => cases hc
  | clearObjectStore ident =>
    have hm (st : ObjectStoreState Key Value) (ho : st.OwnsIndexes) :
        RecordsOnly st (st.clear enum) := recordsOnly_clear ho
    refine ⟨keepsTables_onObjectStore h hm, h.onObjectStore hst hm ?_⟩
    intro addr hlk hsc
    exact (h.undoable addr hsc).clear
      (hrv addr hlk (hj addr ⟨ident, hlk⟩ hsc))
  | deleteRange ident rng =>
    have hm (st : ObjectStoreState Key Value) (ho : st.OwnsIndexes) :
        RecordsOnly st (st.deleteRange enum rng) :=
      recordsOnly_deleteRange ho rng
    refine ⟨keepsTables_onObjectStore h hm, h.onObjectStore hst hm ?_⟩
    intro addr hlk hsc
    exact (h.undoable addr hsc).deleteRange
      (hrv addr hlk (hj addr ⟨ident, hlk⟩ hsc))
  | putOrAdd ident request =>
    rw [perform]
    cases hio : now.databaseInfo.infoForExistingObjectStore ident with
    | none => exact ⟨KeepsTables.refl now, h⟩
    | some info =>
      have hm (st : ObjectStoreState Key Value) (ho : st.OwnsIndexes) :
          RecordsOnly st (st.performPutOrAdd scr enum info request).1 :=
        recordsOnly_performPutOrAdd ho info request
      refine ⟨keepsTables_onObjectStore h hm, h.onObjectStore hst hm ?_⟩
      intro addr hlk hsc
      exact (h.undoable addr hsc).performPutOrAdd
        (hrv addr hlk (hj addr ⟨ident, hlk⟩ hsc) info hio)

theorem Tracked.performAll_changesRecords (h : Tracked scr scope start now)
    (hst : Sound scr start) (hj : ∀ addr, scope addr → now.JoinedAtStart addr)
    (run : List (Enumeration × Operation Key Value))
    (hu : BeforeEach scr (RevertibleChange scr) now run) :
    KeepsTables now (now.performAll scr run) ∧
      Tracked scr scope start (now.performAll scr run) := by
  induction run generalizing now with
  | nil => exact ⟨KeepsTables.refl now, h⟩
  | cons first rest ih =>
    obtain ⟨enum, op⟩ := first
    obtain ⟨⟨hc, hrv⟩, hr⟩ := hu
    obtain ⟨ht, hnx⟩ := h.perform_changesRecords hst (fun addr _ => hj addr) hc hrv
    have hj' (addr) (hsc : scope addr) :
        (now.perform scr enum op).JoinedAtStart addr := by
      rw [JoinedAtStart, ht.scope.objectStores, ht.scope.versionChangeAddedObjectStores]
      exact hj addr hsc
    obtain ⟨ht', hl⟩ := ih hnx hj' hr
    exact ⟨ht.trans ht', hl⟩

end

variable {enum : Enumeration}

omit [IDBKeyData Key] in
/-- The end of a transaction frees its stores. -/
theorem stores_finish (backing : MemoryIDBBackingStore Key Value) (addr : Address) :
    ∃ wtrans, backing.finish.stores addr =
      { backing.stores addr with writeTransaction := wtrans } := by
  rw [finish]
  dsimp only
  induction backing.transaction.objectStores generalizing backing with
  | nil => exact ⟨_, rfl⟩
  | cons first rest ih =>
    rw [List.foldl_cons]
    obtain ⟨wtrans, hr⟩ := ih
      { backing with
        stores := Function.update backing.stores first
          { backing.stores first with writeTransaction := false } }
    dsimp only at hr
    rw [hr]
    by_cases heq : addr = first
    · subst heq
      rw [Function.update_self]
      exact ⟨_, rfl⟩
    · rw [Function.update_of_ne heq]
      exact ⟨_, rfl⟩

theorem dataRestored_finish {pre addr} (h : DataRestored scr pre (now.objectStore addr)) :
    DataRestored scr pre (now.finish.objectStore addr) := by
  obtain ⟨wtrans, hso⟩ := stores_finish now addr
  have hv : now.finish.objectStore addr =
      { now.objectStore addr with
        store := { now.stores addr with writeTransaction := wtrans } } := by
    rw [objectStore, hso]
    rfl
  rw [hv]
  exact ⟨h.record, h.orderedKeys, h.indexes, h.keyGeneratorValue⟩

/-- The abort of a transaction that has kept all stores and indexes is its replay. -/
theorem abort_eq_replay (had : now.transaction.versionChangeAddedObjectStores = [])
    (hd : now.transaction.deletedObjectStores = ∅) :
    ∃ reg : MemoryIDBBackingStore Key Value, reg.stores = now.stores ∧
      reg.heap = now.heap ∧ reg.nextIndex = now.nextIndex ∧
      reg.transaction = { now.transaction with
        isAborting := true, objectStores := now.transaction.objectStores } ∧
      now.abort scr enum =
        (let replayed := (enum.order now.transaction.objectStores).foldl
          (fun backing addr => backing.restoreObjectStore scr enum addr)
          (reg.restoreClearedIndexes enum)
        ((enum.values replayed.transaction.deletedIndexes).foldl
          (fun backing idx => backing.restoreDeletedIndex scr enum idx)
          replayed).finish) := by
  refine ⟨{ now with
    databaseInfo := now.transaction.originalDatabaseInfo.getD now.databaseInfo
    transaction := { now.transaction with isAborting := true } }, rfl, rfl, rfl, rfl, ?_⟩
  rw [abort, restoreObjectStores]
  simp only [had, hd, Enumeration.order_nil, Enumeration.values_empty]
  rfl

/-- A read-write transaction whose requests all meet the condition, and whose replay meets no
conflict, is undone by its abort. -/
theorem dataRestored_abort (script : Script Key Value) (start : MemoryIDBBackingStore Key Value)
    (hstart : Sound script start) (names : List String)
    (run : List (Enumeration × Operation Key Value)) (beginning ending : Enumeration)
    (hrun : BeforeEach script (RevertibleChange script)
      (start.beginTransaction beginning false names) run)
    (hconflicts : ∀ address ∈ start.scope beginning false names,
      ¬ (((start.beginTransaction beginning false names).performAll script run).objectStore
        address).ReplayConflicts script) :
    ∀ address ∈ start.scope beginning false names, DataRestored script (start.objectStore address)
      ((((start.beginTransaction beginning false names).performAll script run).abort script
        ending).objectStore address) := by
  have hbegun := begun_beginTransaction start beginning false names
  have hscope : ∀ address ∈ start.scope beginning false names, start.Registered address :=
    fun address => hstart.registered_of_mem_scope
  have hadded : (start.beginTransaction beginning false
      names).transaction.versionChangeAddedObjectStores = [] := by
    rw [hbegun.transaction]
    rfl
  obtain ⟨htabs, htrk⟩ := (hbegun.tracked hstart hscope).performAll_changesRecords hstart
    (fun address hmem => ⟨(hbegun.objectStores address).mpr hmem, by simp [hadded]⟩) run hrun
  obtain ⟨registered, hstores, hheap, hnext, htrans, habort⟩ :=
    @abort_eq_replay Key Value _ script
      ((start.beginTransaction beginning false names).performAll script run) ending
      (htabs.scope.versionChangeAddedObjectStores.trans hadded)
      (by rw [htabs.scope.deletedObjectStores, hbegun.transaction]; rfl)
  have hnoDeleted : ((start.beginTransaction beginning false names).performAll script
      run).transaction.deletedIndexes = ∅ := by
    rw [htabs.deletedIndexes, hbegun.transaction]
    rfl
  obtain ⟨hreplay, hsetl⟩ := htrk.replay hstart hconflicts hstores hheap hnext htrans
    (fun address hmem => by
      rw [htabs.scope.objectStores]
      exact (hbegun.objectStores address).mpr hmem) htrk.joined htrk.nodup ending
  rw [habort]
  dsimp only at hreplay ⊢
  rw [hreplay.deletedIndexes, htrans]
  rw [hnoDeleted, Enumeration.values_empty]
  intro address hmem
  apply dataRestored_finish
  refine (hsetl.settled address hmem List.not_mem_nil).dataRestored
    (hstart.wellFormed address (hscope address hmem)) fun name index hname => ?_
  have hkept := (htrk.kept address hmem name index hname).resolve_right
    (by rw [hnoDeleted]; simp)
  refine (congrArg (fun table => AList.lookup name table) (hreplay.indexesByName address)).trans ?_
  rw [hstores]
  exact hkept

/-- A database with one store of kinds and no index. -/
def kindDatabase (map : Option (KeyValueMap Nat Unit)) : MemoryIDBBackingStore Nat Unit where
  databaseInfo := ⟨"kinds", 1, 1, (∅ : Table Nat IDBObjectStoreInfo).insert 1 kindStoreInfo⟩
  objectStoresByIdentifier := (∅ : Table Nat Address).insert 1 0
  objectStoresByName := (∅ : Table String Address).insert "items" 0
  stores := fun _ =>
    ⟨kindStoreInfo, false, 1, map, map.map fun map => map.keys.toFinset, ∅, ∅⟩
  nextStore := 1
  heap := fun _ => .create kindIndexInfo 0
  nextIndex := 0
  transaction := ⟨false, none, false, [], [], [], [], ∅, ∅, ∅, ∅, ∅, ∅, ∅⟩

private theorem lookup_one {K : Type} [DecidableEq K] {key key' addr}
    (h : ((∅ : Table K Address).insert key 0).lookup key' = some addr) : key' = key ∧ addr = 0 := by
  rw [Table.lookup_insert_eq] at h
  split at h
  · exact ⟨‹_›, (some.inj h).symm⟩
  · cases h

theorem eq_zero_of_registered {map addr} (h : (kindDatabase map).Registered addr) : addr = 0 := by
  obtain ⟨ident, hlk⟩ := h
  exact (lookup_one hlk).2

theorem sound_kindDatabase (map : Option (KeyValueMap Nat Unit)) :
    Sound kindScript (kindDatabase map) := by
  have hno {addr idx} : ¬ ((kindDatabase map).objectStore addr).Registered idx := by
    rintro ⟨name, hnm⟩
    cases hnm
  refine ⟨⟨fun name addr h => ?_, fun ident addr h => ?_⟩, fun addr _ => ?_,
    fun addr _ idx hi => absurd hi hno, fun addr _ idx hi =>
      absurd hi hno⟩
  · obtain ⟨rfl, rfl⟩ := lookup_one h
    exact ⟨Nat.one_pos, rfl, rfl⟩
  · obtain ⟨rfl, rfl⟩ := lookup_one h
    exact ⟨rfl, rfl⟩
  · exact ⟨fun _ _ h => (by cases h), fun _ _ h => (by cases h), rfl⟩

/-- A store with one record. -/
def oneKind : MemoryIDBBackingStore Nat Unit :=
  kindDatabase (some ((∅ : KeyValueMap Nat Unit).insert 1 (some ())))

def putKindInto (key : Nat) : Operation Nat Unit :=
  .putOrAdd 1 (ObjectStoreState.kindRequest key)

/-- The one record of a store is replaced and the store is cleared. -/
theorem dataRestored_oneKind :
    DataRestored kindScript (oneKind.objectStore 0)
      ((((oneKind.beginTransaction newestFirst false ["items"]).performAll kindScript
        [(newestFirst, putKindInto 1), (newestFirst, .clearObjectStore 1)]).abort kindScript
          newestFirst).objectStore 0) := by
  refine dataRestored_abort kindScript oneKind (sound_kindDatabase _) ["items"]
    [(newestFirst, putKindInto 1), (newestFirst, .clearObjectStore 1)] newestFirst newestFirst
    ⟨⟨rfl, ?_⟩, ⟨rfl, ?_⟩, trivial⟩ ?_ 0 (by decide)
  · rintro address hlook - info hinfo key value generated hcheck
    obtain rfl := Option.some.inj hlook
    obtain ⟨rfl, -⟩ := Prod.mk.inj (Except.ok.inj hcheck)
    refine ⟨.inr (.inr rfl), ?_⟩
    rintro - ⟨earlier, index, rest, hsplit, -⟩
    have hnil : [] = earlier ++ index :: rest := hsplit
    simp at hnil
  · rintro address hlook -
    obtain rfl := Option.some.inj hlook
    exact .inr rfl
  · rintro address hmem ⟨index, ⟨name, hname⟩, -⟩
    obtain rfl := List.mem_singleton.mp hmem
    cases hname

/-- A new record of an empty store is not removed by the abort: the key comes back with a null
value. -/
theorem not_dataRestored_new_record :
    Sound kindScript (kindDatabase none) ∧
    0 ∈ (kindDatabase none).scope newestFirst false ["items"] ∧
    ¬ DataRestored kindScript ((kindDatabase none).objectStore 0)
      (((((kindDatabase none).beginTransaction newestFirst false ["items"]).performAll kindScript
        [(newestFirst, putKindInto 1)]).abort kindScript newestFirst).objectStore 0) := by
  refine ⟨sound_kindDatabase none, by decide, fun h => ?_⟩
  have hrec := congrFun h.record 1
  cases hrec

end MemoryIDBBackingStore

end QtWebKit.IndexedDB
