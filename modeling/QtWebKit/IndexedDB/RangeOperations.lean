import QtWebKit.IndexedDB.StoreMirror
import Mathlib.Data.Set.Card

/-! # Operations on key ranges

Counting and deleting repeat the search for the lowest key while they narrow the range.
They and the search follow `containsKey` in an object store. An index that took back a
put lists keys that it has no entry for: they count nothing, but the search finds them. -/

namespace QtWebKit.IndexedDB

open Lib Option MemoryObjectStore Finset

variable {Key Value : Type} [IDBKeyData Key] {keys : Finset Key} {range : IDBKeyRangeData Key}
  {key : Key}

/-- The loop that counts by narrowing the range, with the rounds it may take. -/
def countKeysInRange (lowest : IDBKeyRangeData Key → Option Key) (weight : Key → Nat) :
    Nat → IDBKeyRangeData Key → Option Nat
  | 0, _ => none
  | rounds + 1, range =>
    match lowest range with
    | none => some 0
    | some key =>
      (countKeysInRange lowest weight rounds
        { range with lowerKey := some key, lowerOpen := true }).map (weight key + ·)

/-- The loop adds up the weights of the keys inside the range. Its lookup may leave out keys
of no weight. -/
theorem countKeysInRange_eq {lowest} {weight : Key → Nat}
    (hlw : ∀ range, lowest range = firstKey keys range.inside ∨
      lowest range = none ∧ ∀ key ∈ keysInside keys range, weight key = 0)
    {rounds} (hr : (keysInside keys range).card < rounds) :
    countKeysInRange lowest weight rounds range =
      some (∑ key ∈ keysInside keys range, weight key) := by
  induction rounds generalizing range with
  | zero => exact absurd hr (Nat.not_lt_zero _)
  | succ rounds ih =>
    rw [countKeysInRange]
    cases hfn : lowest range with
    | none =>
      have hz : ∀ key ∈ keysInside keys range, weight key = 0 := by
        obtain heq | ⟨-, hz⟩ := hlw range
        · simp [keysInside_eq_empty_iff.mpr (heq.symm.trans hfn)]
        · exact hz
      rw [sum_eq_zero hz]
    | some key =>
      have hfr : firstKey keys range.inside = some key := by
        obtain heq | ⟨hno, -⟩ := hlw range
        · rw [← heq, hfn]
        · rw [hno] at hfn
          cases hfn
      have hm := mem_keysInside_of_firstKey hfr
      simp only
      rw [ih, keysInside_narrowed hfr, map_some, add_sum_erase _ _ hm]
      rw [keysInside_narrowed hfr]
      exact (card_erase_lt_of_mem hm).trans_le (Nat.le_of_lt_succ hr)

namespace IndexValueStore

variable (store : IndexValueStore Key)

def lowestKeyWithRecordInRange (range : IDBKeyRangeData Key) : Option Key :=
  match range.exactlyOneKey with
  | some key => if store.contains key then some key else none
  | none => lowestInRange store.orderedKeys range

def countForKey (key : Key) : Nat :=
  match store.records.lookup key with
  | none => 0
  | some entry => entry.getCount

variable {store}

/-- What the lookup leaves out has no weight in the count. -/
theorem Lists.lowestKey_cases (h : store.Lists) (range : IDBKeyRangeData Key) :
    store.lowestKeyWithRecordInRange range = firstKey store.orderedKeys range.inside ∨
      store.lowestKeyWithRecordInRange range = none ∧
        ∀ key ∈ keysInside store.orderedKeys range, store.countForKey key = 0 := by
  rw [lowestKeyWithRecordInRange]
  cases ho : range.exactlyOneKey with
  | none => exact .inl (lowestInRange_eq _ _)
  | some one =>
    rw [firstKey_of_exactlyOneKey ho]
    cases he : store.records.lookup one with
    | some ent => exact .inl (by simp [contains, he, h.listed one ent he])
    | none =>
      refine .inr ⟨by simp [contains, he], fun key hk => ?_⟩
      rw [(range.inside_iff_of_exactlyOneKey ho).mp (mem_keysInside.mp hk).2, countForKey, he]

/-- The counts of the keys inside a range add up to the number of entries. -/
theorem Lists.sum_countForKey (h : store.Lists) :
    ∑ key ∈ keysInside store.orderedKeys range, store.countForKey key =
      {held : Key × Key | store.Holds held.1 held.2 ∧ range.inside held.1 = true}.ncard := by
  let primaries (key : Key) : Finset Key :=
    match store.records.lookup key with
    | none => ∅
    | some ent => ent.keys
  have hm (held : Key × Key) : store.Holds held.1 held.2 ↔ held.2 ∈ primaries held.1 := by
    simp only [Holds, primaries]
    cases store.records.lookup held.1 with
    | none => simp
    | some ent => simp
  have hst : {held : Key × Key | store.Holds held.1 held.2 ∧ range.inside held.1 = true} =
      ((keysInside store.orderedKeys range).sigma primaries).map
        (Equiv.sigmaEquivProd Key Key).toEmbedding := by
    ext held
    rw [mem_coe, mem_map_equiv, mem_sigma, mem_keysInside]
    change _ ↔ (_ ∧ _) ∧ held.2 ∈ primaries held.1
    rw [← hm]
    constructor
    · rintro ⟨⟨ent, he, hhl⟩, hi⟩
      exact ⟨⟨h.listed _ ent he, hi⟩, ent, he, hhl⟩
    · rintro ⟨⟨-, hi⟩, hhl⟩
      exact ⟨hhl, hi⟩
  rw [hst, Set.ncard_coe_finset, card_map, card_sigma]
  refine sum_congr rfl fun key _ => ?_
  simp only [countForKey, primaries]
  cases store.records.lookup key with
  | none => rfl
  | some ent => exact ent.getCount_eq_card

end IndexValueStore

/-- The found key is the least of the stored keys that the range contains; none is found
where the range contains none of them. -/
def IsLowest (stored : Key → Prop) (range : IDBKeyRangeData Key) : Option Key → Prop
  | none => ∀ key, stored key → range.containsKey key = false
  | some key => IsLeast {key | stored key ∧ range.containsKey key = true} key

theorem isLowest_iff {stored : Key → Prop} (hs : ∀ key, key ∈ keys ↔ stored key)
    (h : range.EndsValid) {found} :
    IsLowest stored range found ↔ found = firstKey keys range.inside := by
  rw [eq_comm]
  cases found with
  | none => simp only [IsLowest, range.containsKey_eq h, ← hs, firstKey_eq_none_iff]
  | some key =>
    simp only [IsLowest, range.containsKey_eq h, ← hs, firstKey_eq_some_iff, IsLeast,
      mem_lowerBounds, Set.mem_ofPred_eq, and_imp, and_assoc]

namespace MemoryIndex

variable (index : MemoryIndex Key)

/-- The lookup in the records of the index, if it has them. -/
def lowestKeyWithRecordInRange (range : IDBKeyRangeData Key) : Option Key :=
  index.records.bind fun records => records.lowestKeyWithRecordInRange range

def countForKeyRange (rounds : Nat) (range : IDBKeyRangeData Key) : Option Nat :=
  match index.records with
  | none => some 0
  | some records =>
    countKeysInRange records.lowestKeyWithRecordInRange records.countForKey rounds range

/-- The lookup and the count of the index follow `containsKey`. -/
@[mk_iff]
structure FollowsRange (range : IDBKeyRangeData Key) : Prop where
  lowest : IsLowest (fun key => ∃ primary, index.Holds key primary) range
    (index.lowestKeyWithRecordInRange range)
  count : ∃ enough, ∀ rounds ≥ enough, index.countForKeyRange rounds range =
    some {held : Key × Key | index.Holds held.1 held.2 ∧ range.containsKey held.1 = true}.ncard

variable {index}

/-- A listed key without an entry is found unless a key of the range with an entry is below. -/
theorem Lists.followsRange_iff (h : index.Lists) (hg : range.EndsValid) :
    index.FollowsRange range ↔ range.exactlyOneKey.isSome = true ∨
      ∀ key ∈ index.orderedKeys, range.containsKey key = true →
        ∃ first ≤ key, range.containsKey first = true ∧ ∃ prim, index.Holds first prim := by
  cases hrs : index.records with
  | none =>
    have hh (key prim) : ¬ index.Holds key prim := by simp [Holds, hrs]
    have hem : index.orderedKeys = ∅ := by simp [orderedKeys, hrs]
    refine iff_of_true ⟨?_, 0, fun rounds _ => ?_⟩ (.inr (by simp [hem]))
    · simp [lowestKeyWithRecordInRange, hrs, hh, IsLowest]
    · simp [countForKeyRange, hrs, hh]
  | some recs =>
    have hls := h.records recs hrs
    have hh (key prim) : index.Holds key prim ↔ recs.Holds key prim := by
      simp [Holds, hrs]
    have hhl (key) : key ∈ recs.orderedKeys.filter (recs.contains ·) ↔
        ∃ prim, index.Holds key prim := by
      simp only [hh, mem_filter, hls.contains_iff, and_iff_right_iff_imp]
      rintro ⟨prim, ent, he, -⟩
      exact hls.listed key ent he
    have hc : ∃ enough, ∀ rounds ≥ enough, index.countForKeyRange rounds range = some
        {held : Key × Key | index.Holds held.1 held.2 ∧ range.containsKey held.1 = true}.ncard := by
      refine ⟨(keysInside recs.orderedKeys range).card + 1, fun rounds hr => ?_⟩
      simp only [hh, range.containsKey_eq hg, countForKeyRange, hrs, ← hls.sum_countForKey]
      exact countKeysInRange_eq hls.lowestKey_cases hr
    rw [MemoryIndex.followsRange_iff, and_iff_left hc, isLowest_iff hhl hg,
      lowestKeyWithRecordInRange, hrs, bind_some, IndexValueStore.lowestKeyWithRecordInRange]
    cases ho : range.exactlyOneKey with
    | some one =>
      rw [firstKey_of_exactlyOneKey ho]
      refine iff_of_true (if_congr ?_ rfl rfl) (.inl rfl)
      simp only [hhl, hh, hls.contains_iff]
    | none =>
      simp only [lowestInRange_eq, firstKey_eq_iff_of_subset (filter_subset _ _), hhl,
        range.containsKey_eq hg, orderedKeys, hrs, map_some, getD_some,
        isSome_none, Bool.false_eq_true, false_or]

end MemoryIndex

def MemoryObjectStore.countForKeyRange (store : MemoryObjectStore Key Value) (rounds : Nat)
    (range : IDBKeyRangeData Key) : Option Nat :=
  match store.keyValueStore with
  | none => some 0
  | some _ => countKeysInRange store.lowestKeyWithRecordInRange (fun _ => 1) rounds range

namespace ObjectStoreState

variable (enum : Enumeration) {state : ObjectStoreState Key Value}

theorem listed_deleteRecord (h : state.WellFormed) (key : Key) :
    (state.deleteRecord enum key).listed = state.listed.erase key := by
  ext oth
  rw [mem_erase, (wellFormed_deleteRecord enum h key).mem_listed, h.mem_listed,
    containsRecord, containsRecord, record_deleteRecord]
  split <;> simp [*]

/-- As many rounds as there are keys in the range delete them, and more rounds do nothing. -/
theorem deleteKeysInRange_eq (h : state.WellFormed) {rounds}
    (hr : (keysInside state.listed range).card ≤ rounds) :
    (∀ key, (deleteKeysInRange enum rounds range state).store.record key =
      if key ∈ keysInside state.listed range then none else state.store.record key) ∧
    ∀ more, deleteKeysInRange enum (rounds + more) range state =
      deleteKeysInRange enum rounds range state := by
  -- A round that finds no key is the last one.
  have hl {range} {state : ObjectStoreState Key Value} (h : state.WellFormed) (rounds)
      (hno : keysInside state.listed range = ∅) :
      deleteKeysInRange enum rounds range state = state := by
    cases rounds with
    | zero => rfl
    | succ rounds => rw [deleteKeysInRange, h.lowestKey_eq, keysInside_eq_empty_iff.mp hno]
  induction rounds generalizing range state with
  | zero =>
    have hno := card_eq_zero.mp (Nat.le_zero.mp hr)
    simp [hl h _ hno, hno]
  | succ rounds ih =>
    cases hf : firstKey state.listed range.inside with
    | none =>
      have hno := keysInside_eq_empty_iff.mpr hf
      simp [hl h _ hno, hno]
    | some first =>
      have hcr := card_erase_lt_of_mem (mem_keysInside_of_firstKey hf)
      have hks : keysInside (state.deleteRecord enum first).listed
          { range with lowerKey := some first, lowerOpen := true } =
            (keysInside state.listed range).erase first := by
        rw [listed_deleteRecord enum h, keysInside, filter_erase, ← keysInside,
          keysInside_narrowed hf, erase_idem]
      obtain ⟨hre, hmr⟩ := ih (wellFormed_deleteRecord enum h first)
        (hks ▸ Nat.le_of_lt_succ (hcr.trans_le hr))
      simp only [Nat.add_right_comm rounds 1, deleteKeysInRange, h.lowestKey_eq, hf]
      refine ⟨fun key => ?_, hmr⟩
      rw [hre, record_deleteRecord]
      have hm := mem_keysInside_of_firstKey hf
      grind

theorem record_deleteRange (h : state.WellFormed) (key : Key) :
    (state.deleteRange enum range).store.record key =
      if range.inside key then none else state.store.record key := by
  rw [deleteRange]
  split
  case h_1 one ho =>
    rw [record_deleteRecord]
    simp only [IDBKeyRangeData.inside_iff_of_exactlyOneKey ho]
  case h_2 =>
    refine ((deleteKeysInRange_eq enum h (card_filter_le _ _)).1 key).trans ?_
    simp only [mem_keysInside, h.mem_listed, containsRecord]
    cases state.store.record key with
    | none => simp
    | some val => simp

/-- The lookup, the count and the deletion of the store follow `containsKey`, and the loops
end: more rounds change nothing. -/
structure FollowsRange (state : ObjectStoreState Key Value) (range : IDBKeyRangeData Key) :
    Prop where
  lowest : IsLowest (state.store.containsRecord · = true) range
    (state.store.lowestKeyWithRecordInRange range)
  count : ∃ enough, ∀ rounds ≥ enough, state.store.countForKeyRange rounds range =
    some {key | state.store.containsRecord key = true ∧ range.containsKey key = true}.ncard
  delete : ∀ key, (state.deleteRange enum range).store.record key =
    if range.containsKey key then none else state.store.record key
  ends : ∀ more, deleteKeysInRange enum
    (state.listed.card + more) range state =
      deleteKeysInRange enum state.listed.card range state

theorem WellFormed.followsRange (h : state.WellFormed) (hg : range.EndsValid) :
    state.FollowsRange enum range where
  lowest := (isLowest_iff (fun _ => h.mem_listed) hg).mpr (h.lowestKey_eq range)
  count := by
    have hst : {key | state.store.containsRecord key = true ∧ range.containsKey key = true} =
        keysInside state.listed range := by
      ext key
      rw [mem_coe, mem_keysInside, h.mem_listed, range.containsKey_eq hg]
      rfl
    refine ⟨(keysInside state.listed range).card + 1, fun rounds hr => ?_⟩
    rw [hst, Set.ncard_coe_finset, countForKeyRange]
    cases hmp : state.store.keyValueStore with
    | none => simp [keysInside, listed, h.orderedKeys, hmp]
    | some map =>
      rw [card_eq_sum_ones]
      exact countKeysInRange_eq (fun range => .inl (h.lowestKey_eq range)) hr
  delete key := by
    rw [record_deleteRange enum h, range.containsKey_eq hg]
  ends := (deleteKeysInRange_eq enum h (card_filter_le _ _)).2

/-- Three records that share the key 10 of the index `kind`. -/
def threeKinds : List (Enumeration × StoreOperation Nat Unit) :=
  [(newestFirst, .createIndex kindIndexInfo), (newestFirst, putKind 1), (newestFirst, putKind 2),
    (newestFirst, putKind 3)]

/-- The index `kind` after it took back the refused second record. -/
def refusedKind : MemoryIndex Nat :=
  ([.createIndex serialIndexInfo, .createIndex kindIndexInfo, putKind 1, putKind 2].foldl
    (fun state => state.performOperation kindScript kindStoreInfo newestFirst) kindStore).heap 1

end ObjectStoreState

end QtWebKit.IndexedDB
