import Mathlib

/-!
# Search among increasing keys

A decision tree over the increasing keys `key 0 < ... < key (n - 1)` narrows the part of the
keys that can be equal to a value. When the bounds of a part are the keys next to it and the
keys of the part are consecutive, a value in the part must be one of its keys.
-/

namespace QtWebKit.Lib

open List

/-- The keys increase. -/
def Increasing (key : Nat → Int) (n : Nat) : Prop :=
  ∀ i j, i < j → j < n → key i < key j

/-- The keys from `start` to `stop` are left to be compared with the value. -/
structure Bracket (key : Nat → Int) (n start stop : Nat) (value : Int) : Prop where
  low : start ≠ 0 → key start ≤ value
  high : stop < n → value < key stop

/-- The test of a leaf of the tree for consecutive keys up to both bounds; a hard start is a
lower bound that was compared with. -/
def leavesNoGap (key : Nat → Int) (n start : Nat) (hardStart : Bool) (stop : Nat) : Bool :=
  (hardStart || (start ≠ 0 && key (start - 1) = key start - 1)) && stop < n &&
    key (stop - 1) = key stop - 1 &&
    (List.range (stop - start - 1)).all fun i => key (start + i) + 1 = key (start + i + 1)

namespace Bracket

variable {key : Nat → Int} {n start stop i : Nat} {val : Int}

theorem whole (val : Int) : Bracket key n 0 n val :=
  ⟨fun h => absurd rfl h, fun h => absurd h (Nat.lt_irrefl n)⟩

theorem left (h : Bracket key n start stop val) {median} (hl : val < key median) :
    Bracket key n start median val :=
  ⟨h.low, fun _ => hl⟩

theorem right (h : Bracket key n start stop val) {median} (hl : ¬ val < key median) :
    Bracket key n median stop val :=
  ⟨fun _ => Int.not_lt.mp hl, h.high⟩

/-- A key that is equal to the value is in the part. -/
theorem mem_of_key_eq (hky : Increasing key n) (h : Bracket key n start stop val) (hi : i < n)
    (hval : key i = val) (hst : start < n) : start ≤ i ∧ i < stop := by
  constructor
  · by_contra hlt
    have hlw := h.low (by omega)
    have := hky i start (by omega) hst
    omega
  · by_contra hge
    have hh := h.high (by omega)
    obtain rfl | hlt := Nat.eq_or_lt_of_not_lt hge
    · omega
    · have := hky stop i hlt hi
      omega

/-- A value in a part without gap is one of its keys. -/
theorem exists_key_eq (h : Bracket key n start stop val) {hardStart}
    (hhr : hardStart = true → start ≠ 0) (hlt : start < stop)
    (hg : leavesNoGap key n start hardStart stop = true) :
    ∃ i, start ≤ i ∧ i < stop ∧ key i = val := by
  simp only [leavesNoGap, Bool.and_eq_true, Bool.or_eq_true, decide_eq_true_iff, all_eq_true,
    mem_range] at hg
  obtain ⟨⟨⟨hst, hs⟩, hls⟩, hn⟩ := hg
  have hlw := h.low (hst.elim hhr And.left)
  have hh := h.high hs
  have ho (k) : start + k ≤ stop → key (start + k) = key start + k := by
    induction k with
    | zero => simp
    | succ k ih =>
      intro hk
      have hprevious := ih (by omega)
      by_cases he : start + k + 1 = stop
      · rw [← he, Nat.add_sub_cancel] at hls
        rw [← Nat.add_assoc, Int.natCast_add]
        omega
      · have hstep := hn k (by omega)
        rw [← Nat.add_assoc, Int.natCast_add]
        omega
  have he := ho (stop - start) (by omega)
  rw [Nat.add_sub_cancel' (Nat.le_of_lt hlt)] at he
  refine ⟨start + (val - key start).toNat, by omega, by omega, ?_⟩
  rw [ho _ (by omega)]
  omega

end Bracket

/-! ### Sorted entries -/

section

variable {α : Type*} {key : α → Int} {entries : List α}

/-- Sorting entries with distinct keys gives increasing keys. -/
theorem pairwise_mergeSort_key (h : (entries.map key).Nodup) :
    (entries.mergeSort fun a b => key a ≤ key b).Pairwise fun a b => key a < key b := by
  have hle := @List.pairwise_mergeSort _ (fun a b : α => decide (key a ≤ key b))
    (fun a b c => by simp only [decide_eq_true_iff]; exact Int.le_trans)
    (fun a b => by simpa using Int.le_total (key a) (key b)) entries
  have hne : (entries.mergeSort fun a b => key a ≤ key b).Pairwise fun a b => key a ≠ key b := by
    rw [← pairwise_map, ← nodup_iff_pairwise_ne, ((mergeSort_perm entries _).map key).nodup_iff]
    exact h
  exact (hle.and hne).imp fun h => Int.lt_iff_le_and_ne.mpr ⟨of_decide_eq_true h.1, h.2⟩

theorem increasing_of_pairwise (h : entries.Pairwise fun a b => key a < key b) (default : α) :
    Increasing (fun i => key (entries.getD i default)) entries.length := by
  intro i j hij hj
  dsimp only
  rw [getD_eq_getElem _ _ (hij.trans hj), getD_eq_getElem _ _ hj]
  exact pairwise_iff_getElem.mp h i j _ hj hij

/-- With increasing keys, the entry with a given key is the only one. -/
theorem find?_key {default}
    (h : Increasing (fun i => key (entries.getD i default)) entries.length) {i}
    (hi : i < entries.length) :
    entries.find? (fun ent => key ent = key (entries.getD i default)) =
      some (entries.getD i default) := by
  rw [getD_eq_getElem _ _ hi, find?_eq_some_iff_getElem]
  refine ⟨by simp, i, hi, rfl, fun j hj => ?_⟩
  have hl := h j i hj hi
  dsimp only at hl
  rw [getD_eq_getElem _ _ (hj.trans hi), getD_eq_getElem _ _ hi] at hl
  simpa using Int.ne_of_lt hl

theorem find?_key_eq_none {default val}
    (h : ∀ i < entries.length, key (entries.getD i default) ≠ val) :
    entries.find? (fun ent => key ent = val) = none := by
  rw [find?_eq_none]
  intro ent hen heq
  obtain ⟨i, hi, rfl⟩ := mem_iff_getElem.mp hen
  exact h i hi (by rw [getD_eq_getElem _ _ hi]; exact of_decide_eq_true heq)

end

/-! ### Keys in a machine type -/

variable {w : Nat} {key : Int}

/-- The key is a signed integer of `w` bits. -/
def Fits (w : Nat) (key : Int) : Prop := -2 ^ (w - 1) ≤ key ∧ key < 2 ^ (w - 1)

theorem eq_ofInt_iff (hw : 0 < w) (h : Fits w key) {val : BitVec w} :
    val = BitVec.ofInt w key ↔ key = val.toInt := by
  rw [← BitVec.toInt_inj, BitVec.toInt_ofInt_eq_self hw h.1 h.2, eq_comm]

theorem slt_ofInt_iff (hw : 0 < w) (h : Fits w key) {val : BitVec w} :
    val.slt (BitVec.ofInt w key) = true ↔ val.toInt < key := by
  rw [BitVec.slt_iff_toInt_lt, BitVec.toInt_ofInt_eq_self hw h.1 h.2]

end QtWebKit.Lib
