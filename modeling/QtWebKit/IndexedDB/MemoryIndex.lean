import QtWebKit.IndexedDB.Key
import Mathlib.Data.Finset.Option

/-! # Indexes of the memory backing store

An index keeps, beside an ordered set of its keys, a hash table from each key to
the primary keys of the records that have it: one primary key in an entry of a
unique index, an ordered set of them in any other. -/

namespace QtWebKit.IndexedDB

open Lib List Option Table

variable {Key : Type} [IDBKeyData Key]

/-- An object store or an index in memory. -/
abbrev Address := Nat

inductive IndexValueEntry (Key : Type)
  | unique (key : Option Key)
  | nonUnique (orderedKeys : Finset Key)

namespace IndexValueEntry

def create : Bool → IndexValueEntry Key
  | true => unique none
  | false => nonUnique ∅

def addKey : IndexValueEntry Key → Key → IndexValueEntry Key
  | unique _, key => unique (some key)
  | nonUnique orderedKeys, key => nonUnique (insert key orderedKeys)

/-- The entry without a key, and whether the key was there. -/
def removeKey : IndexValueEntry Key → Key → IndexValueEntry Key × Bool
  | unique held, key => if held = some key then (unique none, true) else (unique held, false)
  | nonUnique orderedKeys, key => (nonUnique (orderedKeys.erase key), decide (key ∈ orderedKeys))

def getCount : IndexValueEntry Key → Nat
  | unique key => if key.isSome then 1 else 0
  | nonUnique orderedKeys => orderedKeys.card

def isUnique : IndexValueEntry Key → Bool
  | unique _ => true
  | nonUnique _ => false

/-- The primary keys of an entry. -/
def keys : IndexValueEntry Key → Finset Key
  | unique key => key.toFinset
  | nonUnique orderedKeys => orderedKeys

theorem mem_keys_addKey_create {isUnique} {key key' : Key} :
    key' ∈ ((create isUnique).addKey key).keys ↔ key' = key := by
  cases isUnique with
  | false => simp [create, addKey, keys]
  | true => simp [create, addKey, keys]

variable {entry : IndexValueEntry Key}

theorem mem_keys_addKey (h : entry.isUnique = false)
    {key key'} : key' ∈ (entry.addKey key).keys ↔ key' = key ∨ key' ∈ entry.keys := by
  cases entry with
  | unique held => cases h
  | nonUnique orderedKeys => simp [addKey, keys]

theorem mem_keys_removeKey {key key'} :
    key' ∈ (entry.removeKey key).1.keys ↔ key' ≠ key ∧ key' ∈ entry.keys := by
  cases entry with
  | nonUnique orderedKeys => simp [removeKey, keys]
  | unique held =>
    by_cases h : held = some key
    · simp [removeKey, keys, h]
    · simp only [removeKey, if_neg h, keys, mem_toFinset]
      constructor
      · rintro rfl
        exact ⟨fun heq => h (heq ▸ rfl), rfl⟩
      · exact And.right

theorem removeKey_snd {key} : (entry.removeKey key).2 = true ↔ key ∈ entry.keys := by
  cases entry with
  | nonUnique orderedKeys => simp [removeKey, keys]
  | unique held =>
    by_cases h : held = some key
    · simp [removeKey, keys, h]
    · simp [removeKey, keys, h]

omit [IDBKeyData Key] in
theorem getCount_eq_card (entry : IndexValueEntry Key) : entry.getCount = entry.keys.card := by
  cases entry with
  | nonUnique orderedKeys => rfl
  | unique held =>
    cases held with
    | none => rfl
    | some key => simp [getCount, keys]

omit [IDBKeyData Key] in
@[simp] theorem isUnique_create (isUnique : Bool) :
    (create isUnique : IndexValueEntry Key).isUnique = isUnique := by
  cases isUnique <;> rfl

@[simp] theorem isUnique_addKey (entry : IndexValueEntry Key) (key : Key) :
    (entry.addKey key).isUnique = entry.isUnique := by
  cases entry <;> rfl

@[simp] theorem isUnique_removeKey (entry : IndexValueEntry Key) (key : Key) :
    (entry.removeKey key).1.isUnique = entry.isUnique := by
  cases entry with
  | nonUnique orderedKeys => rfl
  | unique held =>
    simp only [removeKey]
    split <;> rfl

omit [IDBKeyData Key] in
/-- An entry of a unique index has at most one primary key. -/
theorem eq_of_mem_keys (h : entry.isUnique = true)
    {key key'} (hk : key ∈ entry.keys) (hk' : key' ∈ entry.keys) : key = key' := by
  cases entry with
  | nonUnique orderedKeys => cases h
  | unique held =>
    simp only [keys, mem_toFinset] at hk hk'
    exact some.inj (hk.symm.trans hk')

end IndexValueEntry

structure IndexValueStore (Key : Type) where
  unique : Bool
  records : Table Key (IndexValueEntry Key)
  orderedKeys : Finset Key

namespace IndexValueStore

variable (store : IndexValueStore Key)

def create (unique : Bool) : IndexValueStore Key := ⟨unique, ∅, ∅⟩

def contains (key : Key) : Bool :=
  (store.records.lookup key).isSome

def addRecord (indexKey valueKey : Key) : IndexValueStore Key × Option IDBError :=
  match store.records.lookup indexKey with
  | some entry =>
    if store.unique then (store, some .constraint)
    else
      ({ store with
          records := store.records.insert indexKey (entry.addKey valueKey)
          orderedKeys := insert indexKey store.orderedKeys }, none)
  | none =>
    ({ store with
        records := store.records.insert indexKey
          ((IndexValueEntry.create store.unique).addKey valueKey)
        orderedKeys := insert indexKey store.orderedKeys }, none)

/-- The whole entry goes as soon as the primary key was in it, and the ordered set keeps
the key. -/
def removeRecord (indexKey valueKey : Key) : IndexValueStore Key :=
  match store.records.lookup indexKey with
  | none => store
  | some entry =>
    if (entry.removeKey valueKey).2 then
      { store with records := store.records.erase indexKey }
    else store

def removeEntriesWithValueKey (valueKey : Key) : IndexValueStore Key :=
  let swept := store.records.mapValues fun entry => (entry.removeKey valueKey).1
  let entryKeysToRemove := (swept.entries.filter fun entry => entry.2.getCount = 0).map Sigma.fst
  { store with
    records := entryKeysToRemove.foldl (fun records key => records.erase key) swept
    orderedKeys := entryKeysToRemove.foldl (fun keys key => keys.erase key) store.orderedKeys }

/-- The store has an entry for an index key with a primary key in it. -/
def Holds (indexKey valueKey : Key) : Prop :=
  ∃ entry, store.records.lookup indexKey = some entry ∧ valueKey ∈ entry.keys

/-- What every operation keeps: the ordered set lists the keys of the table, whose entries are
not empty and of the kind of the store. The set may list keys without an entry. -/
structure Lists (store : IndexValueStore Key) : Prop where
  listed : ∀ key entry, store.records.lookup key = some entry → key ∈ store.orderedKeys
  nonempty : ∀ key entry, store.records.lookup key = some entry → entry.keys.Nonempty
  kind : ∀ key entry, store.records.lookup key = some entry → entry.isUnique = store.unique

theorem lists_create (unique : Bool) : (create unique : IndexValueStore Key).Lists := by
  constructor <;> simp [create]

theorem not_holds_create (unique : Bool) (ikey vkey : Key) : ¬ (create unique).Holds ikey vkey := by
  simp [create, Holds]

variable {store}

variable {ikey vkey : Key}

theorem Lists.contains_iff (h : store.Lists) :
    store.contains ikey = true ↔ ∃ vkey, store.Holds ikey vkey := by
  rw [contains, isSome_iff_exists]
  constructor
  · rintro ⟨entry, he⟩
    obtain ⟨vkey, hm⟩ := h.nonempty ikey entry he
    exact ⟨vkey, entry, he, hm⟩
  · rintro ⟨vkey, entry, he, hm⟩
    exact ⟨entry, he⟩

theorem Lists.eq_of_holds (h : store.Lists) (hu : store.unique = true)
    {vkey'} (hv : store.Holds ikey vkey) (hv' : store.Holds ikey vkey') : vkey = vkey' := by
  obtain ⟨entry, he, hm⟩ := hv
  obtain ⟨entry', he', hm'⟩ := hv'
  obtain rfl := some.inj (he.symm.trans he')
  exact IndexValueEntry.eq_of_mem_keys ((h.kind _ _ he).trans hu) hm hm'

@[simp] theorem unique_addRecord (store : IndexValueStore Key) (ikey vkey : Key) :
    (store.addRecord ikey vkey).1.unique = store.unique := by
  rw [addRecord]
  split
  · split <;> rfl
  · rfl

/-- A unique store refuses a key it has. -/
theorem addRecord_refused (hu : store.unique = true)
    (hc : store.contains ikey = true) (vkey : Key) :
    store.addRecord ikey vkey = (store, some .constraint) := by
  obtain ⟨entry, he⟩ := isSome_iff_exists.mp hc
  rw [addRecord, he]
  exact if_pos hu

/-- Putting an entry that holds what the old one held, and one primary key more. -/
private theorem lists_insert (h : store.Lists)
    {entry : IndexValueEntry Key} (hkn : entry.isUnique = store.unique)
    (hks : ∀ key, key ∈ entry.keys ↔ key = vkey ∨ store.Holds ikey key) :
    let after : IndexValueStore Key :=
      { store with
        records := store.records.insert ikey entry
        orderedKeys := insert ikey store.orderedKeys }
    after.Lists ∧ after.orderedKeys = insert ikey store.orderedKeys ∧
      ∀ key prim, after.Holds key prim ↔
        store.Holds key prim ∨ (key = ikey ∧ prim = vkey) := by
  refine ⟨⟨fun key oth ho => ?_, fun key oth ho => ?_, fun key oth ho => ?_⟩, rfl,
    fun key prim => ?_⟩
  · rw [lookup_insert_eq] at ho
    rw [Finset.mem_insert]
    split at ho
    case isTrue hk => exact .inl hk
    case isFalse => exact .inr (h.listed key oth ho)
  · rw [lookup_insert_eq] at ho
    split at ho
    · rw [← Option.some.inj ho]
      exact ⟨vkey, (hks vkey).mpr (.inl rfl)⟩
    · exact h.nonempty key oth ho
  · rw [lookup_insert_eq] at ho
    split at ho
    · rwa [← Option.some.inj ho]
    · exact h.kind key oth ho
  · simp only [Holds, lookup_insert_eq]
    by_cases hk : key = ikey
    · subst hk
      simp only [if_pos, Option.some.injEq, exists_eq_left', hks, true_and]
      exact or_comm
    · simp [hk]

theorem addRecord_accepted (h : store.Lists)
    (ha : store.unique = true → store.contains ikey = false) (vkey : Key) :
    (store.addRecord ikey vkey).2 = none ∧
      (store.addRecord ikey vkey).1.Lists ∧
      (store.addRecord ikey vkey).1.orderedKeys = insert ikey store.orderedKeys ∧
      ∀ key prim, (store.addRecord ikey vkey).1.Holds key prim ↔
        store.Holds key prim ∨ (key = ikey ∧ prim = vkey) := by
  rw [addRecord]
  split
  case h_1 entry he =>
    have hnt : store.unique = false := by
      by_contra hu
      have := ha (by simpa using hu)
      rw [contains, he] at this
      cases this
    have hkn := (h.kind _ _ he).trans hnt
    rw [if_neg (by simp [hnt])]
    refine ⟨rfl, lists_insert h (by rw [IndexValueEntry.isUnique_addKey, hkn, hnt]) fun key => ?_⟩
    rw [IndexValueEntry.mem_keys_addKey hkn]
    simp [Holds, he]
  case h_2 hno =>
    refine ⟨rfl, lists_insert h (by simp) fun key => ?_⟩
    rw [IndexValueEntry.mem_keys_addKey_create]
    simp [Holds, hno]

private theorem mem_foldl_erase (keys : List Key) (set : Finset Key) (key : Key) :
    key ∈ keys.foldl (fun set key => set.erase key) set ↔ key ∈ set ∧ key ∉ keys := by
  induction keys generalizing set with
  | nil => simp
  | cons first rest ih =>
    rw [List.foldl_cons, ih, Finset.mem_erase, List.mem_cons]
    tauto

/-- An index key is dropped exactly if its entry has only the removed primary key. -/
private theorem mem_entryKeysToRemove {key} :
    key ∈ ((store.records.mapValues fun entry => (entry.removeKey vkey).1).entries.filter
        fun entry => entry.2.getCount = 0).map Sigma.fst ↔
      ∃ entry, store.records.lookup key = some entry ∧
        (entry.removeKey vkey).1.keys = ∅ := by
  rw [List.mem_map]
  constructor
  · rintro ⟨swept, hsw, rfl⟩
    rw [List.mem_filter, decide_eq_true_iff, IndexValueEntry.getCount_eq_card,
      Finset.card_eq_zero] at hsw
    have hlk := lookup_eq_some_iff.mpr hsw.1
    rw [lookup_mapValues, Option.map_eq_some_iff] at hlk
    obtain ⟨entry, he, heq⟩ := hlk
    exact ⟨entry, he, heq ▸ hsw.2⟩
  · rintro ⟨entry, he, hem⟩
    refine ⟨⟨key, (entry.removeKey vkey).1⟩, ?_, rfl⟩
    rw [List.mem_filter, decide_eq_true_iff, IndexValueEntry.getCount_eq_card, Finset.card_eq_zero]
    refine ⟨lookup_eq_some_iff.mp ?_, hem⟩
    rw [lookup_mapValues, he]
    rfl

private theorem lookup_removeEntriesWithValueKey {key} {entry : IndexValueEntry Key} :
    (store.removeEntriesWithValueKey vkey).records.lookup key = some entry ↔
      entry.keys.Nonempty ∧ ∃ old, store.records.lookup key = some old ∧
        entry = (old.removeKey vkey).1 := by
  simp only [removeEntriesWithValueKey, lookup_foldl_erase, mem_entryKeysToRemove, lookup_mapValues]
  cases hd : store.records.lookup key with
  | none => simp
  | some old =>
    by_cases hem : (old.removeKey vkey).1.keys = ∅
    · rw [if_pos ⟨old, rfl, hem⟩]
      simp only [reduceCtorEq, Option.some.injEq, exists_eq_left', false_iff, not_and]
      rintro hnm rfl
      exact hnm.ne_empty hem
    · rw [if_neg (by simpa using hem)]
      simp only [Option.map_some, Option.some.injEq, exists_eq_left']
      constructor
      · rintro rfl
        exact ⟨Finset.nonempty_iff_ne_empty.mpr hem, rfl⟩
      · rintro ⟨-, rfl⟩
        rfl

theorem Lists.removeEntriesWithValueKey (h : store.Lists) (vkey : Key) :
    (store.removeEntriesWithValueKey vkey).Lists := by
  refine ⟨fun key entry he => ?_, fun key entry he => ?_, fun key entry he => ?_⟩
  · obtain ⟨hnm, old, hd, rfl⟩ := lookup_removeEntriesWithValueKey.mp he
    refine (mem_foldl_erase _ _ _).mpr ⟨h.listed key old hd, ?_⟩
    rw [mem_entryKeysToRemove]
    rintro ⟨old', hd', hem⟩
    obtain rfl := some.inj (hd.symm.trans hd')
    exact hnm.ne_empty hem
  · exact (lookup_removeEntriesWithValueKey.mp he).1
  · obtain ⟨-, old, hd, rfl⟩ := lookup_removeEntriesWithValueKey.mp he
    rw [IndexValueEntry.isUnique_removeKey]
    exact h.kind key old hd

theorem Lists.removeRecord (h : store.Lists) (ikey vkey : Key) :
    (store.removeRecord ikey vkey).Lists := by
  rw [IndexValueStore.removeRecord]
  split
  · exact h
  · split
    · constructor <;> grind [lookup_erase_eq, h.listed, h.nonempty, h.kind]
    · exact h

theorem holds_removeEntriesWithValueKey (vkey ikey prim : Key) :
    (store.removeEntriesWithValueKey vkey).Holds ikey prim ↔
      store.Holds ikey prim ∧ prim ≠ vkey := by
  constructor
  · rintro ⟨entry, he, hm⟩
    obtain ⟨-, old, hd, rfl⟩ := lookup_removeEntriesWithValueKey.mp he
    obtain ⟨hne, hm⟩ := IndexValueEntry.mem_keys_removeKey.mp hm
    exact ⟨⟨old, hd, hm⟩, hne⟩
  · rintro ⟨⟨old, hd, hm⟩, hne⟩
    have hkp := IndexValueEntry.mem_keys_removeKey.mpr ⟨hne, hm⟩
    exact ⟨_, lookup_removeEntriesWithValueKey.mpr ⟨⟨prim, hkp⟩, old, hd, rfl⟩, hkp⟩

/-- A key that stays listed keeps a primary key. -/
theorem exists_holds_removeEntriesWithValueKey
    (hk : ikey ∈ (store.removeEntriesWithValueKey vkey).orderedKeys)
    (h : ikey ∈ store.orderedKeys → ∃ prim, store.Holds ikey prim) :
    ∃ prim, (store.removeEntriesWithValueKey vkey).Holds ikey prim := by
  obtain ⟨hls, hkp⟩ := (mem_foldl_erase _ _ _).mp hk
  obtain ⟨-, old, hd, -⟩ := h hls
  have hnm : (old.removeKey vkey).1.keys.Nonempty :=
    Finset.nonempty_iff_ne_empty.mpr fun hem => hkp (mem_entryKeysToRemove.mpr ⟨old, hd, hem⟩)
  obtain ⟨prim, hm⟩ := hnm
  exact ⟨prim, _, lookup_removeEntriesWithValueKey.mpr ⟨⟨prim, hm⟩, old, hd, rfl⟩, hm⟩

end IndexValueStore

structure MemoryIndex (Key : Type) where
  info : IDBIndexInfo
  objectStore : Address
  records : Option (IndexValueStore Key)

namespace MemoryIndex

variable (index : MemoryIndex Key)

def create (info : IDBIndexInfo) (objectStore : Address) : MemoryIndex Key :=
  ⟨info, objectStore, none⟩

/-- `clearIndexValueStore` is the case of a null store. -/
def replaceIndexValueStore (valueStore : Option (IndexValueStore Key)) : MemoryIndex Key :=
  { index with records := valueStore }

omit [IDBKeyData Key] in
theorem replaceIndexValueStore_congr {index oth : MemoryIndex Key}
    (hio : oth.info = index.info) (hso : oth.objectStore = index.objectStore)
    (valueStore : Option (IndexValueStore Key)) :
    oth.replaceIndexValueStore valueStore = index.replaceIndexValueStore valueStore := by
  rw [replaceIndexValueStore, replaceIndexValueStore, hio, hso]

/-- The value store of an index, made at the first put. -/
def opened : IndexValueStore Key :=
  index.records.getD (.create index.info.unique)

def putIndexKey (valueKey : Key) (indexKey : List Key) : MemoryIndex Key × Option IDBError :=
  let records := index.opened
  if index.info.multiEntry = false then
    let result := records.addRecord (IndexKey.asOneKey indexKey) valueKey
    ({ index with records := some result.1 }, result.2)
  else
    let keys := IndexKey.multiEntry indexKey
    if index.info.unique && keys.any records.contains then
      ({ index with records := some records }, some .constraint)
    else
      ({ index with
          records := some (keys.foldl (fun records key => (records.addRecord key valueKey).1)
            records) }, none)

def removeRecord (valueKey : Key) (indexKey : List Key) : MemoryIndex Key :=
  { index with
    records := index.records.map fun records =>
      (index.info.entryKeys indexKey).foldl (fun records key => records.removeRecord key valueKey)
        records }

def removeEntriesWithValueKey (valueKey : Key) : MemoryIndex Key :=
  { index with records := index.records.map fun records =>
    records.removeEntriesWithValueKey valueKey }

/-- The ordered set of the keys of the index. -/
def orderedKeys : Finset Key :=
  (index.records.map fun records => records.orderedKeys).getD ∅

/-- The slot of an index key. -/
def entry (indexKey : Key) : Option (IndexValueEntry Key) :=
  index.records.bind fun records => records.records.lookup indexKey

/-- The index has a primary key under an index key. -/
def Holds (indexKey valueKey : Key) : Prop :=
  ∃ records, index.records = some records ∧ records.Holds indexKey valueKey

/-- What every operation keeps: the entries are listed, of the kind of the index, and have
primary keys. -/
structure Lists (index : MemoryIndex Key) : Prop where
  records : ∀ records, index.records = some records → records.Lists
  unique : ∀ records, index.records = some records → records.unique = index.info.unique

/-- Every listed key has an entry as well. -/
structure Consistent (index : MemoryIndex Key) : Prop extends Lists index where
  ordered : ∀ key ∈ index.orderedKeys, ∃ valueKey, index.Holds key valueKey

/-- A unique index refuses an index key that has one of the keys it holds. -/
def Refuses (indexKey : List Key) : Prop :=
  index.info.unique = true ∧
    ∃ key ∈ index.info.entryKeys indexKey, ∃ valueKey, index.Holds key valueKey

theorem consistent_create (info : IDBIndexInfo) (objectStore : Address) :
    (create info objectStore : MemoryIndex Key).Consistent :=
  ⟨⟨nofun, nofun⟩, by simp [create, orderedKeys]⟩

theorem consistent_emptied (index : MemoryIndex Key) :
    (index.replaceIndexValueStore none).Consistent :=
  ⟨⟨nofun, nofun⟩, by simp [replaceIndexValueStore, orderedKeys]⟩

theorem not_holds_create (info : IDBIndexInfo) (objectStore : Address) (ikey vkey : Key) :
    ¬ (create info objectStore).Holds ikey vkey := by
  simp [create, Holds]

variable {index}

theorem Lists.eq_of_holds (h : index.Lists) (hu : index.info.unique = true)
    {ikey vkey vkey'} (hv : index.Holds ikey vkey)
    (hv' : index.Holds ikey vkey') : vkey = vkey' := by
  obtain ⟨recs, hrs, hh⟩ := hv
  obtain ⟨recs', hrs', hh'⟩ := hv'
  obtain rfl := some.inj (hrs.symm.trans hrs')
  exact (h.records _ hrs).eq_of_holds ((h.unique _ hrs).trans hu) hh hh'

theorem Lists.listed_of_holds (h : index.Lists) {ikey vkey} (hh : index.Holds ikey vkey) :
    ikey ∈ index.orderedKeys := by
  obtain ⟨recs, hrs, ent, he, -⟩ := hh
  rw [orderedKeys, hrs]
  exact (h.records recs hrs).listed ikey ent he

theorem exists_holds_iff {ikey} :
    (∃ prim, index.Holds ikey prim) ↔
      ∃ ent, index.entry ikey = some ent ∧ 0 < ent.getCount := by
  simp only [entry, Holds, IndexValueStore.Holds,
    IndexValueEntry.getCount_eq_card, Finset.card_pos, Option.bind_eq_some_iff]
  grind

private theorem lists_opened (h : index.Lists) :
    index.opened.Lists ∧ index.opened.unique = index.info.unique := by
  rw [opened]
  cases hrs : index.records with
  | none => exact ⟨IndexValueStore.lists_create _, rfl⟩
  | some recs => exact ⟨h.records recs hrs, h.unique recs hrs⟩

private theorem holds_opened {ikey vkey} :
    index.opened.Holds ikey vkey ↔ index.Holds ikey vkey := by
  rw [opened, Holds]
  cases hrs : index.records with
  | none => simp [IndexValueStore.not_holds_create]
  | some recs => simp

omit [IDBKeyData Key] in
private theorem orderedKeys_opened : index.opened.orderedKeys = index.orderedKeys := by
  rw [opened, orderedKeys]
  cases index.records <;> rfl

/-- Entering several keys that a unique store does not have yet. -/
private theorem foldl_addRecord {store : IndexValueStore Key} (h : store.Lists)
    {keys : List Key} (hnd : keys.Nodup)
    (ha : store.unique = true → ∀ key ∈ keys, ∀ prim, ¬ store.Holds key prim) (vkey : Key) :
    let after := keys.foldl (fun recs key => (recs.addRecord key vkey).1) store
    after.Lists ∧ after.unique = store.unique ∧
      after.orderedKeys = store.orderedKeys ∪ keys.toFinset ∧
      ∀ key prim, after.Holds key prim ↔ store.Holds key prim ∨ (key ∈ keys ∧ prim = vkey) := by
  induction keys generalizing store with
  | nil => simpa using h
  | cons first rest ih =>
    rw [nodup_cons] at hnd
    have hf : store.unique = true → store.contains first = false := by
      intro hu
      rw [← Bool.not_eq_true, h.contains_iff]
      rintro ⟨prim, hh⟩
      exact ha hu first mem_cons_self prim hh
    obtain ⟨-, hls, hor, hh⟩ := IndexValueStore.addRecord_accepted h hf vkey
    have hr := ih hls hnd.2 fun hu key hk prim hp => by
      rw [IndexValueStore.unique_addRecord] at hu
      rcases (hh key prim).mp hp with hd | ⟨rfl, -⟩
      · exact ha hu key (mem_cons_of_mem _ hk) prim hd
      · exact hnd.1 hk
    refine ⟨hr.1, hr.2.1.trans (IndexValueStore.unique_addRecord _ _ _), ?_, fun key prim => ?_⟩
    · rw [foldl_cons, hr.2.2.1, hor, toFinset_cons, Finset.insert_union, Finset.union_insert]
    · rw [foldl_cons, hr.2.2.2, hh, mem_cons]
      tauto

theorem nodup_multiEntry (keys : List Key) : (IndexKey.multiEntry keys).Nodup := by
  have hs (keys entries : List Key) (h : entries.Nodup) :
      (keys.foldl (fun entries key =>
        if IDBKeyData.isValid key && !entries.contains key then entries ++ [key] else entries)
        entries).Nodup := by
    induction keys generalizing entries with
    | nil => exact h
    | cons key rest ih =>
      rw [foldl_cons]
      apply ih
      split
      case isTrue hw =>
        have hm : key ∉ entries := by simpa using (Bool.and_eq_true_iff.mp hw).2
        exact nodup_append.mpr ⟨h, nodup_singleton _, by
          rintro oth ho _ hk rfl
          exact hm (mem_singleton.mp hk ▸ ho)⟩
      case isFalse => exact h
  exact hs keys [] nodup_nil

theorem nodup_entryKeys (info : IDBIndexInfo) (ikey : List Key) : (info.entryKeys ikey).Nodup := by
  rw [IDBIndexInfo.entryKeys]
  split
  · exact nodup_multiEntry ikey
  · exact nodup_singleton _

@[simp] theorem info_putIndexKey (index : MemoryIndex Key) (vkey : Key)
    (ikey : List Key) : (index.putIndexKey vkey ikey).1.info = index.info := by
  simp only [putIndexKey]
  split_ifs <;> rfl

/-- A put that is refused opens the value store of the index at most. -/
theorem putIndexKey_refused (h : index.Lists) {ikey} (hrf : index.Refuses ikey) (vkey : Key) :
    (index.putIndexKey vkey ikey).2 = some .constraint ∧
      (index.putIndexKey vkey ikey).1 = { index with records := some index.opened } := by
  obtain ⟨hu, key, hk, prim, hh⟩ := hrf
  obtain ⟨hls, hun⟩ := lists_opened h
  have hc := hls.contains_iff.mpr ⟨prim, holds_opened.mpr hh⟩
  rw [IDBIndexInfo.entryKeys] at hk
  simp only [putIndexKey]
  by_cases hml : index.info.multiEntry = false
  · rw [if_neg (by simp [hml]), mem_singleton] at hk
    rw [if_pos hml, IndexValueStore.addRecord_refused (hun.trans hu) (hk ▸ hc)]
    exact ⟨rfl, rfl⟩
  · rw [if_pos (by simpa using hml)] at hk
    have han := any_eq_true.mpr ⟨key, hk, hc⟩
    rw [if_neg hml, if_pos (by rw [hu, han]; rfl)]
    exact ⟨rfl, rfl⟩

theorem contents_putIndexKey_refused (h : index.Lists) {ikey} (hrf : index.Refuses ikey)
    (vkey : Key) :
    (index.putIndexKey vkey ikey).1.Lists ∧
      (index.putIndexKey vkey ikey).1.orderedKeys = index.orderedKeys ∧
      ∀ key prim, (index.putIndexKey vkey ikey).1.Holds key prim ↔ index.Holds key prim := by
  obtain ⟨hls, hun⟩ := lists_opened h
  rw [(putIndexKey_refused h hrf vkey).2]
  refine ⟨⟨?_, ?_⟩, orderedKeys_opened, fun key prim => ?_⟩
  · rintro _ ⟨⟩
    exact hls
  · rintro _ ⟨⟩
    exact hun
  · refine Iff.trans ?_ holds_opened
    simp [Holds]

/-- A put that is not refused enters the keys one by one. -/
private theorem putIndexKey_eq (h : index.Lists) {ikey} (hac : ¬ index.Refuses ikey)
    (vkey : Key) :
    index.putIndexKey vkey ikey = ({ index with
      records := some ((index.info.entryKeys ikey).foldl
        (fun recs key => (recs.addRecord key vkey).1) index.opened) }, none) := by
  obtain ⟨hls, hun⟩ := lists_opened h
  have hno : index.info.unique = true → ∀ key ∈ index.info.entryKeys ikey,
      index.opened.contains key = false := by
    intro hu key hk
    rw [← Bool.not_eq_true, hls.contains_iff]
    rintro ⟨prim, hh⟩
    exact hac ⟨hu, key, hk, prim, holds_opened.mp hh⟩
  simp only [putIndexKey]
  by_cases hml : index.info.multiEntry = false
  · have hks : index.info.entryKeys ikey = [IndexKey.asOneKey ikey] := by
      rw [IDBIndexInfo.entryKeys, if_neg (by simp [hml])]
    have heo := (IndexValueStore.addRecord_accepted hls (fun hu =>
      hno (hun.symm.trans hu) _ (hks ▸ mem_singleton_self _)) vkey).1
    rw [if_pos hml, hks, heo]
    rfl
  · have hks : index.info.entryKeys ikey = IndexKey.multiEntry ikey := by
      rw [IDBIndexInfo.entryKeys, if_pos (by simpa using hml)]
    have han : ¬ ((index.info.unique && (IndexKey.multiEntry ikey).any
        index.opened.contains) = true) := by
      rw [Bool.and_eq_true, List.any_eq_true]
      rintro ⟨hu, key, hk, hc⟩
      rw [hno hu key (hks ▸ hk)] at hc
      cases hc
    rw [if_neg hml, if_neg han, hks]

theorem putIndexKey_accepted (h : index.Lists) {ikey} (hac : ¬ index.Refuses ikey) (vkey : Key) :
    (index.putIndexKey vkey ikey).2 = none ∧
      (index.putIndexKey vkey ikey).1.Lists ∧
      (index.putIndexKey vkey ikey).1.orderedKeys =
        index.orderedKeys ∪ (index.info.entryKeys ikey).toFinset ∧
      ∀ key prim, (index.putIndexKey vkey ikey).1.Holds key prim ↔
        index.Holds key prim ∨ (key ∈ index.info.entryKeys ikey ∧ prim = vkey) := by
  obtain ⟨hop, hun⟩ := lists_opened h
  obtain ⟨hls, hu, hor, hh⟩ := foldl_addRecord hop (nodup_entryKeys index.info ikey)
    (fun hu key hk prim hh => hac ⟨hun.symm.trans hu, key, hk, prim, holds_opened.mp hh⟩) vkey
  rw [putIndexKey_eq h hac]
  refine ⟨rfl, ⟨?_, ?_⟩, hor.trans (by rw [orderedKeys_opened]), fun key prim => ?_⟩
  · rintro _ ⟨⟩
    exact hls
  · rintro _ ⟨⟩
    exact hu.trans hun
  · refine Iff.trans ?_ ((hh key prim).trans (or_congr_left holds_opened))
    simp [Holds]

theorem Lists.putIndexKey (h : index.Lists) (vkey : Key) (ikey : List Key) :
    (index.putIndexKey vkey ikey).1.Lists := by
  by_cases hrf : index.Refuses ikey
  · exact (contents_putIndexKey_refused h hrf vkey).1
  · exact (putIndexKey_accepted h hrf vkey).2.1

theorem consistent_putIndexKey (h : index.Consistent) (vkey : Key) (ikey : List Key) :
    (index.putIndexKey vkey ikey).1.Consistent := by
  refine ⟨h.putIndexKey vkey ikey, fun key hk => ?_⟩
  by_cases hrf : index.Refuses ikey
  · obtain ⟨-, hor, hh⟩ := contents_putIndexKey_refused h.toLists hrf vkey
    rw [hor] at hk
    simpa only [hh] using h.ordered key hk
  · obtain ⟨-, -, hor, hh⟩ := putIndexKey_accepted h.toLists hrf vkey
    rw [hor, Finset.mem_union, List.mem_toFinset] at hk
    rcases hk with hd | hnw
    · obtain ⟨prim, hp⟩ := h.ordered key hd
      exact ⟨prim, (hh key prim).mpr (.inl hp)⟩
    · exact ⟨vkey, (hh key vkey).mpr (.inr ⟨hnw, rfl⟩)⟩

theorem Lists.removeEntriesWithValueKey (h : index.Lists) (vkey : Key) :
    (index.removeEntriesWithValueKey vkey).Lists := by
  constructor
  · intro recs hrs
    obtain ⟨old, hd, rfl⟩ := map_eq_some_iff.mp hrs
    exact (h.records old hd).removeEntriesWithValueKey vkey
  · intro recs hrs
    obtain ⟨old, hd, rfl⟩ := map_eq_some_iff.mp hrs
    exact h.unique old hd

theorem consistent_removeEntriesWithValueKey (h : index.Consistent) (vkey : Key) :
    (index.removeEntriesWithValueKey vkey).Consistent := by
  refine ⟨h.removeEntriesWithValueKey vkey, fun key hk => ?_⟩
  have hor := h.ordered key
  simp only [orderedKeys, Holds, MemoryIndex.removeEntriesWithValueKey] at hk hor ⊢
  cases hrs : index.records with
  | none => simp [hrs] at hk
  | some recs =>
    simp only [hrs, map_some, getD_some, some.injEq, exists_eq_left'] at hk hor ⊢
    exact IndexValueStore.exists_holds_removeEntriesWithValueKey hk hor

theorem holds_removeEntriesWithValueKey (vkey ikey prim : Key) :
    (index.removeEntriesWithValueKey vkey).Holds ikey prim ↔
      index.Holds ikey prim ∧ prim ≠ vkey := by
  simp only [Holds, removeEntriesWithValueKey, map_eq_some_iff]
  constructor
  · rintro ⟨_, ⟨old, hd, rfl⟩, hh⟩
    obtain ⟨hhl, hne⟩ := (IndexValueStore.holds_removeEntriesWithValueKey _ _ _).mp hh
    exact ⟨⟨old, hd, hhl⟩, hne⟩
  · rintro ⟨⟨old, hd, hhl⟩, hne⟩
    exact ⟨_, ⟨old, hd, rfl⟩,
      (IndexValueStore.holds_removeEntriesWithValueKey _ _ _).mpr ⟨hhl, hne⟩⟩

theorem Lists.removeRecord (h : index.Lists) (vkey : Key) (ikey : List Key) :
    (index.removeRecord vkey ikey).Lists := by
  have hrm (recs) (hls : IndexValueStore.Lists recs) (keys : List Key) :
      let after := keys.foldl (fun recs key => recs.removeRecord key vkey) recs
      after.Lists ∧ after.unique = recs.unique := by
    induction keys generalizing recs with
    | nil => exact ⟨hls, rfl⟩
    | cons key rest ih =>
      obtain ⟨hl, hu⟩ := ih _ (hls.removeRecord key vkey)
      refine ⟨hl, hu.trans ?_⟩
      rw [IndexValueStore.removeRecord]
      grind
  constructor
  · intro recs hrs
    obtain ⟨old, hd, rfl⟩ := map_eq_some_iff.mp hrs
    exact (hrm old (h.records old hd) _).1
  · intro recs hrs
    obtain ⟨old, hd, rfl⟩ := map_eq_some_iff.mp hrs
    exact (hrm old (h.records old hd) _).2.trans (h.unique old hd)

/-- Taking back keys one by one drops their entries, but the ordered set keeps them. -/
private theorem foldl_removeRecord {store : IndexValueStore Key} {keys : List Key}
    {vkey} (hnd : keys.Nodup) (hh : ∀ key ∈ keys, store.Holds key vkey) :
    let after := keys.foldl (fun recs key => recs.removeRecord key vkey) store
    after.orderedKeys = store.orderedKeys ∧
      ∀ key prim, after.Holds key prim ↔ store.Holds key prim ∧ key ∉ keys := by
  induction keys generalizing store with
  | nil => simp
  | cons first rest ih =>
    rw [nodup_cons] at hnd
    obtain ⟨entry, he, hm⟩ := hh first mem_cons_self
    have hrm : store.removeRecord first vkey =
        { store with records := store.records.erase first } := by
      rw [IndexValueStore.removeRecord, he]
      exact if_pos (IndexValueEntry.removeKey_snd.mpr hm)
    have hkp (key prim) : (store.removeRecord first vkey).Holds key prim ↔
        store.Holds key prim ∧ key ≠ first := by
      rw [hrm]
      simp only [IndexValueStore.Holds, lookup_erase_eq]
      by_cases hk : key = first <;> simp [hk]
    obtain ⟨hor, hno⟩ := ih hnd.2 fun key hk => (hkp key vkey).mpr
      ⟨hh key (mem_cons_of_mem _ hk), fun heq => hnd.1 (heq ▸ hk)⟩
    rw [foldl_cons]
    refine ⟨hor.trans (by rw [hrm]), fun key prim => ?_⟩
    rw [hno, hkp, and_assoc, mem_cons, not_or]

/-- An index in which a put was taken back has lost all entries of its keys, and lists them. -/
theorem contents_reverted (h : index.Lists) {ikey} (hac : ¬ index.Refuses ikey) (vkey : Key) :
    let after := (index.putIndexKey vkey ikey).1.removeRecord vkey ikey
    after.orderedKeys = index.orderedKeys ∪ (index.info.entryKeys ikey).toFinset ∧
      ∀ key prim, after.Holds key prim ↔
        index.Holds key prim ∧ key ∉ index.info.entryKeys ikey := by
  obtain ⟨-, -, hor, hh⟩ := putIndexKey_accepted h hac vkey
  rw [putIndexKey_eq h hac] at hor hh ⊢
  simp only [Holds, some.injEq, exists_eq_left', orderedKeys, map_some, getD_some,
    removeRecord] at hor hh ⊢
  obtain ⟨hkp, hno⟩ := foldl_removeRecord (nodup_entryKeys index.info ikey)
    fun key hk => (hh key vkey).mpr (.inr ⟨hk, rfl⟩)
  refine ⟨hkp.trans hor, fun key prim => ?_⟩
  rw [hno, hh]
  grind

end MemoryIndex

end QtWebKit.IndexedDB
