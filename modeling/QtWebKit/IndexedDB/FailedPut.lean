import QtWebKit.IndexedDB.StoreMirror

/-!
# Puts that report an error

A put that fails its checks has no effect. One that an index refuses has deleted the
record it was to replace, and takes its keys back from the indexes before that one
together with the entries of other records. Such an index keeps the keys listed, so a
second put that is refused in the same way finds nothing to lose.
-/

namespace QtWebKit.IndexedDB.ObjectStoreState

open Lib List

variable {Key Value : Type} [IDBKeyData Key] {script : Script Key Value}
  {state after : ObjectStoreState Key Value} {info : IDBObjectStoreInfo}
  {request : PutRequest Key Value}

/-- The records, the contents of every index and the key generator are as before. -/
structure SameData (before after : ObjectStoreState Key Value) : Prop where
  record : after.store.record = before.store.record
  holds : ∀ index, before.Registered index → (after.heap index).Holds = (before.heap index).Holds
  orderedKeys : ∀ index, before.Registered index →
    (after.heap index).orderedKeys = (before.heap index).orderedKeys
  keyGeneratorValue : after.store.keyGeneratorValue = before.store.keyGeneratorValue

/-- If the put reports an error, it has no effect. -/
def FailsCleanly (script : Script Key Value) (info : IDBObjectStoreInfo)
    (enum : Enumeration) (state : ObjectStoreState Key Value)
    (request : PutRequest Key Value) : Prop :=
  ∀ error, (state.performPutOrAdd script enum info request).2 = .error error →
    SameData state (state.performPutOrAdd script enum info request).1

/-- Every key that the value has for the index is listed there without an entry. -/
def OnlyStale (script : Script Key Value) (value : Option Value) (index : MemoryIndex Key) : Prop :=
  ∀ indexKey ∈ script.indexKeys index.info value,
    indexKey ∈ index.orderedKeys ∧ ∀ primary, ¬ index.Holds indexKey primary

/-- The condition on a put that passes its checks. If it replaces a record, no index refuses
it on account of another one. If it does not, it reaches nothing but stale keys before an
index that refuses it. -/
structure LosesNothing (script : Script Key Value) (enum : Enumeration)
    (state : ObjectStoreState Key Value) (key : Key) (value : Option Value) : Prop where
  replaced : state.store.record key ≠ none →
    ∀ index, state.Registered index → ¬ state.RefusesPut script key value index
  added : state.store.record key = none → ∀ earlier index rest,
    enum.values state.store.indexesByName = earlier ++ index :: rest →
      (∀ other ∈ earlier, ¬ Rejects script value (state.heap other)) →
      Rejects script value (state.heap index) →
      ∀ other ∈ earlier, OnlyStale script value (state.heap other)

section

variable {enum : Enumeration} {key : Key} {val : Option Value} {gen : Option Nat}

/-- Taking back a put changes nothing exactly where the keys were stale before. -/
theorem onlyStale_iff {index after : MemoryIndex Key}
    (hor : after.orderedKeys = index.orderedKeys ∪ (script.indexKeys index.info val).toFinset)
    (hh : ∀ ikey prim, after.Holds ikey prim ↔
      index.Holds ikey prim ∧ ikey ∉ script.indexKeys index.info val) :
    after.orderedKeys = index.orderedKeys ∧ after.Holds = index.Holds ↔
      OnlyStale script val index := by
  rw [hor, Finset.union_eq_left]
  constructor
  · rintro ⟨hsb, heq⟩ ikey hk
    refine ⟨hsb (mem_toFinset.mpr hk), fun prim hp => ?_⟩
    rw [← heq, hh] at hp
    exact hp.2 hk
  · intro hst
    refine ⟨fun ikey hk => (hst ikey (mem_toFinset.mp hk)).1, ?_⟩
    funext ikey prim
    rw [hh, eq_iff_iff, and_iff_left_iff_imp]
    exact fun hp hk => (hst ikey hk).2 prim hp

/-- Once the old record is deleted, an index rejects what another primary key has a key of. -/
theorem rejects_deleteRecord_of_record (h : state.Sound) {idx} (hi : state.Registered idx)
    (hrc : state.store.record key ≠ none) :
    Rejects script val ((state.deleteRecord enum key).heap idx) ↔
      state.RefusesPut script key val idx := by
  obtain ⟨old, hrc⟩ := Option.ne_none_iff_exists'.mp hrc
  rw [heap_deleteRecord enum h.wellFormed hrc, if_pos (mem_values_iff.mpr hi), Rejects, RefusesPut]
  simp only [MemoryIndex.holds_removeEntriesWithValueKey, and_comm]
  rfl

variable (h : state.Sound) (hch : checkPut script info state request = .ok (key, val, gen))
include h hch

/-- A put that passes the checks fails if an index rejects it after the deletion. Then the
record is gone, the generator is as before, and the indexes are as the addition leaves them. -/
theorem performPutOrAdd_failed (enum : Enumeration) :
    let put := state.performPutOrAdd script enum info request
    ∃ counted, SameButGenerator state counted ∧
      ((∃ error, put.2 = .error error) ↔ ∃ idx, state.Registered idx ∧
        Rejects script val ((counted.deleteRecord enum key).heap idx)) ∧
      ((∃ error, put.2 = .error error) →
        put.1.heap = ((counted.deleteRecord enum key).addRecord script enum key val).1.heap ∧
        (∀ oth, put.1.store.record oth = if oth = key then none else state.store.record oth) ∧
        put.1.store.keyGeneratorValue = state.store.keyGeneratorValue) := by
  intro put
  obtain ⟨counted, hc, hl, hok, he⟩ := performPutOrAdd_of_checkPut enum hch
  have hcs := hc.sound h
  have hd : Writes counted (counted.deleteRecord enum key) _ :=
    writes_deleteRecord hcs.wellFormed key
  have hs := sound_deleteRecord enum hcs key
  have hno : (counted.deleteRecord enum key).store.record key = none := by
    rw [hd.record, if_pos rfl]
  have hg {idx} : idx ∈ enum.values (counted.deleteRecord enum key).store.indexesByName ↔
      state.Registered idx := by
    rw [mem_values_iff, hd.schema.registered_iff, hc.keepsSchema.registered_iff]
  refine ⟨counted, hc, ?_⟩
  rcases rejects_cases script val (counted.deleteRecord enum key).heap
    (enum.values (counted.deleteRecord enum key).store.indexesByName) with
    hal | ⟨prev, idx, rest, hsp, hac, hrej⟩
  · have hp : put.2 = .ok key := by
      refine hok ?_
      rw [addRecord_snd, updateIndexesForPutRecord_accepted hs
        fun idx hi => hal idx (mem_values_iff.mpr hi)]
    rw [hp]
    refine ⟨iff_of_false (by simp) ?_, by simp⟩
    rintro ⟨idx, hi, hrj⟩
    exact hal idx (hg.mpr hi) hrj
  · have hi : state.Registered idx := by
      rw [← hg, hsp]
      exact mem_append_right _ mem_cons_self
    obtain ⟨hcn, ha⟩ := addRecord_rejected hs hno hsp hac hrej
    obtain ⟨hp, hgn⟩ := he (by simp [hcn])
    refine ⟨iff_of_true hp ⟨idx, hi, hrej⟩, fun _ => ⟨hl.heap, fun oth => ?_, ?_⟩⟩
    · rw [hl.record, ha.record, hd.record, hc.record]
    · exact hgn (ha.keyGeneratorValue.trans hd.keyGeneratorValue)

/-- A put that replaces a record is clean exactly if it does not fail. -/
theorem failsCleanly_iff_of_replaced (hrc : state.store.record key ≠ none) :
    FailsCleanly script info enum state request ↔
      ∀ index, state.Registered index → ¬ state.RefusesPut script key val index := by
  obtain ⟨counted, hc, hfail, heff⟩ := performPutOrAdd_failed h hch enum
  have hrj {idx} (hi : state.Registered idx) :
      Rejects script val ((counted.deleteRecord enum key).heap idx) ↔
        state.RefusesPut script key val idx := by
    rw [rejects_deleteRecord_of_record (hc.sound h) (hc.keepsSchema.registered_iff.mpr hi)
      (hc.record ▸ hrc), RefusesPut, RefusesPut, hc.heap]
  constructor
  · intro hclean index hi hrf
    obtain ⟨error, herror⟩ := hfail.mpr ⟨index, hi, (hrj hi).mpr hrf⟩
    apply hrc
    rw [← (hclean error herror).record, (heff ⟨error, herror⟩).2.1, if_pos rfl]
  · intro hall error herror
    obtain ⟨index, hi, hrf⟩ := hfail.mp ⟨error, herror⟩
    exact absurd ((hrj hi).mp hrf) (hall index hi)

/-- A put of a new key is clean exactly if the indexes before a refusing one had only stale
keys of it. -/
theorem failsCleanly_iff_of_added (hrc : state.store.record key = none) :
    FailsCleanly script info enum state request ↔ ∀ earlier index rest,
      enum.values state.store.indexesByName = earlier ++ index :: rest →
        (∀ other ∈ earlier, ¬ Rejects script val (state.heap other)) →
        Rejects script val (state.heap index) →
        ∀ other ∈ earlier, OnlyStale script val (state.heap other) := by
  obtain ⟨counted, hc, hfail, heff⟩ := performPutOrAdd_failed h hch enum
  have hhp : (counted.deleteRecord enum key).heap = state.heap := by
    rw [deleteRecord_of_record_eq_none enum (hc.record ▸ hrc), hc.heap]
  have hd := keepsSchema_deleteRecord enum (hc.sound h).wellFormed key
  have hvl : (counted.deleteRecord enum key).store.indexesByName = state.store.indexesByName :=
    hd.indexesByName.trans hc.keepsSchema.indexesByName
  have hs := sound_deleteRecord enum (hc.sound h) key
  rw [hhp] at hfail
  constructor
  · intro hclean earlier index rest hsp hac hrej other ho
    have hmem {oth} (hm : oth ∈ earlier ++ index :: rest) : state.Registered oth := by
      rwa [← mem_values_iff, hsp]
    obtain ⟨error, herror⟩ := hfail.mpr
      ⟨index, hmem (mem_append_right _ mem_cons_self), hrej⟩
    have hio := hmem (mem_append_left _ ho)
    have hsame := hclean error herror
    obtain ⟨hor, hh⟩ := contents_addRecord_rejected hs (hvl ▸ hsp) (hhp ▸ hac) (hhp ▸ hrej) key
      (hd.registered_iff.mpr (hc.keepsSchema.registered_iff.mpr hio))
    simp only [hhp, if_pos ho, ← (heff ⟨error, herror⟩).1] at hor hh
    exact (onlyStale_iff hor hh).mp ⟨hsame.orderedKeys other hio, hsame.holds other hio⟩
  · intro hstale error herror
    obtain ⟨hheap, hrec, hgen⟩ := heff ⟨error, herror⟩
    obtain ⟨idx, hi, hrej⟩ := hfail.mp ⟨error, herror⟩
    have hcontents (index) (hi : state.Registered index) :
        ((state.performPutOrAdd script enum info request).1.heap index).orderedKeys =
            (state.heap index).orderedKeys ∧
          ((state.performPutOrAdd script enum info request).1.heap index).Holds =
            (state.heap index).Holds := by
      rcases rejects_cases script val state.heap (enum.values state.store.indexesByName) with
        hal | ⟨prev, bad, rest, hsp, hac, hbad⟩
      · exact absurd hrej (hal idx (mem_values_iff.mpr ‹_›))
      obtain ⟨hor, hh⟩ := contents_addRecord_rejected hs (hvl ▸ hsp) (hhp ▸ hac) (hhp ▸ hbad) key
        (hd.registered_iff.mpr (hc.keepsSchema.registered_iff.mpr hi))
      simp only [hhp, ← hheap] at hor hh
      split_ifs at hor hh with hprev
      · exact (onlyStale_iff hor hh).mpr (hstale prev bad rest hsp hac hbad index hprev)
      · refine ⟨by simpa using hor, ?_⟩
        funext ikey prim
        simpa using hh ikey prim
    refine ⟨?_, fun index hi => (hcontents index hi).2, fun index hi => (hcontents index hi).1,
      hgen⟩
    funext oth
    rw [hrec]
    split_ifs with hoth
    · rw [hoth, hrc]
    · rfl

end

/-- The indexes `kind` and `serial` with a first record; `serial` is visited first. -/
def serialFirst : List (Enumeration × StoreOperation Nat Unit) :=
  [(newestFirst, .createIndex kindIndexInfo), (newestFirst, .createIndex serialIndexInfo),
    (newestFirst, putKind 1)]

end QtWebKit.IndexedDB.ObjectStoreState
