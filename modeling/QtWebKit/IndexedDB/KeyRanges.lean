import QtWebKit.IndexedDB.IndexMirror

/-! # Searches in key ranges

The lowest key in a range is found by `lower_bound` in an ordered set, or by a shortcut
for a range of one key. Both are the search for the first key `inside` the range, and
`containsKey` decides the same for a range whose ends are valid. -/

namespace QtWebKit.IndexedDB

open List Option MemoryObjectStore

variable {Key Value : Type} [IDBKeyData Key]

namespace IDBKeyRangeData

variable (range : IDBKeyRangeData Key)

def containsKey (key : Key) : Bool :=
  (range.lowerKey.filter IDBKeyData.isValid).all
      (fun lower => lower ≤ key && !(range.lowerOpen && lower = key)) &&
    (range.upperKey.filter IDBKeyData.isValid).all
      fun upper => key ≤ upper && !(range.upperOpen && upper = key)

/-- Each end of the range is missing or a valid key. -/
def EndsValid : Prop :=
  ∀ key, range.lowerKey = some key ∨ range.upperKey = some key → IDBKeyData.isValid key = true

/-- The key lies between the ends that there are. -/
def inside (key : Key) : Bool :=
  range.lowerKey.all (fun lower => lower ≤ key && !(range.lowerOpen && lower = key)) &&
    range.upperKey.all fun upper => key ≤ upper && !(range.upperOpen && upper = key)

variable {range}

theorem containsKey_eq (h : range.EndsValid) : range.containsKey = range.inside := by
  have hfl {bound : Option Key}
      (hbd : ∀ key, bound = some key → IDBKeyData.isValid key = true) :
      bound.filter IDBKeyData.isValid = bound := by
    cases bound with
    | none => rfl
    | some key => rw [filter_some, if_pos (hbd key rfl)]
  funext key
  rw [containsKey, inside, hfl fun key hk => h key (.inl hk),
    hfl fun key hk => h key (.inr hk)]

theorem inside_iff_of_exactlyOneKey {key oth} (h : range.exactlyOneKey = some key) :
    range.inside oth = true ↔ oth = key := by
  obtain ⟨isNull, lower, upper, lowerOpen, upperOpen⟩ := range
  simp only [exactlyOneKey] at h
  simp only [inside]
  grind

end IDBKeyRangeData

variable {keys : Finset Key} {cond : Key → Bool} {range : IDBKeyRangeData Key} {key : Key}

theorem firstKey_eq_none_iff : firstKey keys cond = none ↔ ∀ key ∈ keys, cond key = false := by
  simp [firstKey]

theorem firstKey_eq_some_iff :
    firstKey keys cond = some key ↔
      key ∈ keys ∧ cond key = true ∧ ∀ oth ∈ keys, cond oth = true → key ≤ oth := by
  have hl {key} (hk : firstKey keys cond = some key) : key ∈ keys ∧
      cond key = true ∧ ∀ oth ∈ keys, cond oth = true → key ≤ oth := by
    obtain ⟨hc, pre, after, hsp, hb⟩ := find?_eq_some_iff_append.mp hk
    have hs := keys.pairwise_sort (· ≤ ·)
    rw [hsp, pairwise_append, pairwise_cons] at hs
    refine ⟨mem_of_firstKey hk, hc, fun oth ho htrue => ?_⟩
    rw [← Finset.mem_sort (· ≤ ·), hsp, mem_append, mem_cons] at ho
    obtain ho | rfl | ho := ho
    · simp at hb ho
      grind
    · exact le_rfl
    · exact hs.2.1.1 oth ho
  refine ⟨hl, fun ⟨hm, hc, hlw⟩ => ?_⟩
  cases hf : firstKey keys cond with
  | none => simp [firstKey_eq_none_iff.mp hf key hm] at hc
  | some first =>
    obtain ⟨hm', hc', hlw'⟩ := hl hf
    rw [le_antisymm (hlw' key hm hc) (hlw first hm' hc')]

/-- A condition that holds below each key where it holds is tried on the first key alone. -/
theorem firstKey_and {upper : Key → Bool}
    (hupper : ∀ key oth, key ≤ oth → upper oth = true → upper key = true) :
    firstKey keys (fun key => cond key && upper key) =
      (firstKey keys cond).filter upper := by
  ext key
  rw [filter_eq_some_iff, firstKey_eq_some_iff, firstKey_eq_some_iff]
  grind

/-- The search by `lower_bound` is the search for the first key inside the range. -/
theorem lowestInRange_eq (keys : Finset Key) (range : IDBKeyRangeData Key) :
    lowestInRange keys range = firstKey keys range.inside := by
  obtain ⟨isNull, lower, upper, lowerOpen, upperOpen⟩ := range
  have hlw : (firstKey keys fun key => lower.all (· ≤ key)).bind (fun bound =>
      if lowerOpen && lower = some bound then firstKey keys (bound < ·) else some bound) =
      firstKey keys fun key => lower.all fun lower =>
        lower ≤ key && !(lowerOpen && lower = key) := by
    cases lower with
    | none => simp
    | some lower =>
      cases lowerOpen with
      | false => simp
      | true =>
        simp only [all_some, Bool.true_and, some.injEq]
        cases hf : firstKey keys fun key => lower ≤ key with
        | none =>
          rw [firstKey_eq_none_iff] at hf
          rw [bind_none, eq_comm, firstKey_eq_none_iff]
          grind
        | some bound =>
          obtain ⟨hm, hbd, hl⟩ := firstKey_eq_some_iff.mp hf
          rw [bind_some]
          by_cases heq : lower = bound
          · subst heq
            simp [lt_iff_le_and_ne]
          · rw [if_neg (by simpa using heq), eq_comm, firstKey_eq_some_iff]
            grind
  unfold IDBKeyRangeData.inside
  rw [lowestInRange, ← bind_assoc, hlw, firstKey_and]
  · cases firstKey keys _ with
    | none => rfl
    | some lowest =>
      cases upper with
      | none => rfl
      | some upper =>
        simp only [bind_some, filter_some, all_some]
        grind
  · cases upper with
    | none => simp
    | some upper => grind

/-- The keys of an ordered set inside a range. -/
def keysInside (keys : Finset Key) (range : IDBKeyRangeData Key) : Finset Key :=
  keys.filter (range.inside ·)

theorem mem_keysInside : key ∈ keysInside keys range ↔ key ∈ keys ∧ range.inside key = true :=
  Finset.mem_filter

theorem keysInside_eq_empty_iff :
    keysInside keys range = ∅ ↔ firstKey keys range.inside = none := by
  simp [keysInside, Finset.filter_eq_empty_iff, firstKey_eq_none_iff]

theorem mem_keysInside_of_firstKey (h : firstKey keys range.inside = some key) :
    key ∈ keysInside keys range :=
  have hf := firstKey_eq_some_iff.mp h
  mem_keysInside.mpr ⟨hf.1, hf.2.1⟩

/-- One round: the range behind its first key has the other keys. -/
theorem keysInside_narrowed (h : firstKey keys range.inside = some key) :
    keysInside keys { range with lowerKey := some key, lowerOpen := true } =
      (keysInside keys range).erase key := by
  obtain ⟨-, hk, hl⟩ := firstKey_eq_some_iff.mp h
  obtain ⟨isNull, lower, upper, lowerOpen, upperOpen⟩ := range
  ext oth
  have hle := hl oth
  rw [Finset.mem_erase, mem_keysInside, mem_keysInside]
  simp only [IDBKeyRangeData.inside, Bool.and_eq_true, all_some] at hk hle ⊢
  generalize (upper.all _ = true) = below at hle ⊢
  cases lower with
  | none => grind
  | some lower => grind

theorem firstKey_of_exactlyOneKey (h : range.exactlyOneKey = some key) :
    firstKey keys range.inside = if key ∈ keys then some key else none := by
  have hi {oth} : range.inside oth = true ↔ oth = key :=
    range.inside_iff_of_exactlyOneKey h
  split
  case isTrue hm =>
    rw [firstKey_eq_some_iff]
    exact ⟨hm, hi.mpr rfl, fun oth _ h => (hi.mp h).ge⟩
  case isFalse hm =>
    rw [firstKey_eq_none_iff]
    exact fun oth ho => Bool.eq_false_iff.mpr fun h => hm (hi.mp h ▸ ho)

/-- A search among more keys finds the same one if each more key lies above a key that was
there. -/
theorem firstKey_eq_iff_of_subset {fewer : Finset Key} (h : fewer ⊆ keys) :
    firstKey keys cond = firstKey fewer cond ↔ ∀ key ∈ keys, cond key = true →
      ∃ first ≤ key, cond first = true ∧ first ∈ fewer := by
  cases hf : firstKey keys cond with
  | none =>
    have hno := firstKey_eq_none_iff.mp hf
    rw [eq_comm, firstKey_eq_none_iff]
    grind
  | some least =>
    have hl := firstKey_eq_some_iff.mp hf
    rw [eq_comm, firstKey_eq_some_iff]
    constructor
    · rintro ⟨hm, hc, -⟩ key hk hk'
      exact ⟨least, hl.2.2 key hk hk', hc, hm⟩
    · intro ha
      obtain ⟨first, hle, hc, hm⟩ := ha least hl.1 hl.2.1
      obtain rfl := le_antisymm hle (hl.2.2 first (h hm) hc)
      exact ⟨hm, hc, fun oth ho => hl.2.2 oth (h ho)⟩

namespace ObjectStoreState

variable {st : ObjectStoreState Key Value}

/-- The keys that the store lists. -/
def listed (state : ObjectStoreState Key Value) : Finset Key :=
  state.store.orderedKeys.getD ∅

theorem WellFormed.mem_listed (h : st.WellFormed) :
    key ∈ st.listed ↔ st.store.containsRecord key = true := by
  rw [listed, h.orderedKeys, containsRecord, record]
  cases st.store.keyValueStore with
  | none => simp
  | some map =>
    rw [Option.map_some, Option.getD_some, Option.bind_some, List.mem_toFinset, ← AList.mem_keys,
      ← AList.lookup_isSome]

theorem WellFormed.lowestKey_eq (h : st.WellFormed) (range : IDBKeyRangeData Key) :
    st.store.lowestKeyWithRecordInRange range =
      firstKey st.listed range.inside := by
  have hm (key) := @WellFormed.mem_listed _ _ _ key _ h
  have hor := h.orderedKeys
  rw [lowestKeyWithRecordInRange]
  simp only [listed, containsRecord, record] at hm ⊢
  cases hmp : st.store.keyValueStore with
  | none => simp [hor, hmp, firstKey]
  | some map =>
    rw [hmp, map_some] at hor
    simp only [hmp, hor, getD_some, lowestInRange_eq, bind_some] at hm ⊢
    split
    case h_1 key hon =>
      simp only [firstKey_of_exactlyOneKey hon, hm]
      split
      · rfl
      · rfl
    case h_2 => rfl

theorem record_of_lowestKeyWithRecordInRange (h : st.WellFormed)
    (hlo : st.store.lowestKeyWithRecordInRange range = some key) :
    ∃ val, st.store.record key = some val := by
  rw [h.lowestKey_eq] at hlo
  exact isSome_iff_exists.mp (h.mem_listed.mp (mem_of_firstKey hlo))

end ObjectStoreState

end QtWebKit.IndexedDB
