import Mathlib.Data.List.Basic

/-!
# Sorted lists of character ranges

A range list keeps disjoint ranges in the order of their characters, each with
some data. Extending a list by other ranges splits the ranges of both where they
overlap and joins the data there.

## Implementation notes

The code stores the ranges in a vector and links them in order by the index of
the next range; a list here is that chain.
-/

namespace QtWebKit.ContentExtensions

open List

variable {δ ε : Type*}

structure MutableRange (δ : Type*) where
  first : Nat
  last : Nat
  data : δ
  deriving DecidableEq, Repr

/-- How the data of a range enters a list, alone or next to data that is there. -/
structure DataConverter (δ ε : Type*) where
  convert : ε → δ
  extend : δ → ε → δ

namespace DataConverter

/-- The data of a character after a list is extended. -/
def merge (converter : DataConverter δ ε) : Option δ → Option ε → Option δ
  | mine, none => mine
  | none, some other => some (converter.convert other)
  | some mine, some other => some (converter.extend mine other)

@[simp] theorem merge_none (converter : DataConverter δ ε) (mine : Option δ) :
    converter.merge mine none = mine := by
  cases mine <;> rfl

@[simp] theorem merge_none_some (converter : DataConverter δ ε) (oth : ε) :
    converter.merge none (some oth) = some (converter.convert oth) := rfl

@[simp] theorem merge_some_some (converter : DataConverter δ ε) (mine : δ) (oth : ε) :
    converter.merge (some mine) (some oth) = some (converter.extend mine oth) := rfl

end DataConverter

namespace MutableRange

def contains (range : MutableRange δ) (c : Nat) : Bool := range.first ≤ c && c ≤ range.last

theorem contains_iff {rng : MutableRange δ} {c} :
    rng.contains c = true ↔ rng.first ≤ c ∧ c ≤ rng.last := by
  simp [contains]

/-- The data of a character. -/
def dataAt : List (MutableRange δ) → Nat → Option δ
  | [], _ => none
  | range :: rest, c => if range.contains c then some range.data else dataAt rest c

/-- Nonempty ranges in order, from a character on. -/
def SortedFrom : Nat → List (MutableRange δ) → Prop
  | _, [] => True
  | low, range :: rest =>
    low ≤ range.first ∧ range.first ≤ range.last ∧ SortedFrom (range.last + 1) rest

/-- Ranges without the first characters of the first range. -/
def advance (offset : Nat) : List (MutableRange δ) → List (MutableRange δ)
  | [] => []
  | range :: rest => { range with first := range.first + offset } :: rest

/-! ### Extending a list -/

/-- The part of two overlapping ranges before both have started. -/
def leftPart (converter : DataConverter δ ε) (active : MutableRange δ) (range : MutableRange ε)
    (offset : Nat) : List (MutableRange δ) :=
  if active.first < range.first + offset then
    [⟨active.first, range.first + offset - 1, active.data⟩]
  else if range.first + offset < active.first then
    [⟨range.first + offset, active.first - 1, converter.convert range.data⟩]
  else []

/-- The part of two overlapping ranges from where both have started. -/
def combinedPart (converter : DataConverter δ ε) (active : MutableRange δ) (range : MutableRange ε)
    (offset last : Nat) : MutableRange δ :=
  ⟨max active.first (range.first + offset), last, converter.extend active.data range.data⟩

/-- The loops of `extend`; the offset is the number of characters of the first
other range that are already in the list. -/
def extendFrom (converter : DataConverter δ ε) :
    List (MutableRange δ) → List (MutableRange ε) → Nat → List (MutableRange δ)
  | self, [], _ => self
  | [], range :: rest, offset =>
    ⟨range.first + offset, range.last, converter.convert range.data⟩ ::
      extendFrom converter [] rest 0
  | active :: self, range :: rest, offset =>
    if active.last < range.first + offset then
      active :: extendFrom converter self (range :: rest) offset
    else if range.last < active.first then
      ⟨range.first + offset, range.last, converter.convert range.data⟩ ::
        extendFrom converter (active :: self) rest 0
    else
      leftPart converter active range offset ++
        if active.last = range.last then
          combinedPart converter active range offset active.last ::
            extendFrom converter self rest 0
        else if range.last < active.last then
          combinedPart converter active range offset range.last ::
            extendFrom converter ({ active with first := range.last + 1 } :: self) rest 0
        else
          combinedPart converter active range offset active.last ::
            extendFrom converter self (range :: rest) (active.last - range.first + 1)
  termination_by self other => self.length + other.length

/-- `MutableRangeList::extend`. -/
def extend (converter : DataConverter δ ε) (self : List (MutableRange δ))
    (other : List (MutableRange ε)) : List (MutableRange δ) :=
  extendFrom converter self other 0

/-! ### Sorted lists -/

theorem SortedFrom.mono {low low'} (h : low' ≤ low) {rs : List (MutableRange δ)}
    (hs : SortedFrom low rs) : SortedFrom low' rs := by
  cases rs with
  | nil => trivial
  | cons rng rest => exact ⟨Nat.le_trans h hs.1, hs.2⟩

theorem SortedFrom.dataAt_eq_none {low} {rs : List (MutableRange δ)}
    (hs : SortedFrom low rs) {c : Nat} (hc : c < low) : dataAt rs c = none := by
  induction rs generalizing low with
  | nil => rfl
  | cons rng rest ih =>
    obtain ⟨hlw, hg, hr⟩ := hs
    rw [dataAt, if_neg, ih hr (by omega)]
    rw [contains_iff]
    omega

/-- There are no more ranges than characters. -/
theorem SortedFrom.length_le {low high} {rs : List (MutableRange δ)}
    (hs : SortedFrom low rs) (hl : ∀ rng ∈ rs, rng.last < high) : rs.length ≤ high - low := by
  induction rs generalizing low with
  | nil => exact Nat.zero_le _
  | cons rng rest ih =>
    obtain ⟨hlw, hg, hr⟩ := hs
    rw [forall_mem_cons] at hl
    have hle := ih hr hl.2
    rw [length_cons]
    omega

theorem SortedFrom.first_le {low rs}
    (hs : SortedFrom low rs) {rng : MutableRange δ} (hg : rng ∈ rs) : rng.first ≤ rng.last := by
  induction rs generalizing low with
  | nil => cases hg
  | cons head rest ih =>
    rcases mem_cons.mp hg with rfl | hm
    · exact hs.2.1
    · exact ih hs.2.2 hm

theorem SortedFrom.le_first {low rs}
    (hs : SortedFrom low rs) {rng : MutableRange δ} (hg : rng ∈ rs) : low ≤ rng.first := by
  induction rs generalizing low with
  | nil => cases hg
  | cons head rest ih =>
    obtain ⟨hlw, hhd, hr⟩ := hs
    rcases mem_cons.mp hg with rfl | hm
    · exact hlw
    · have hle := ih hr hm
      omega

/-- The data of a range is that of its characters. -/
theorem SortedFrom.dataAt_of_mem {low rs}
    (hs : SortedFrom low rs) {rng : MutableRange δ} (hg : rng ∈ rs) {c}
    (hf : rng.first ≤ c) (hl : c ≤ rng.last) : dataAt rs c = some rng.data := by
  induction rs generalizing low with
  | nil => cases hg
  | cons head rest ih =>
    obtain ⟨hlw, hhd, hr⟩ := hs
    rcases mem_cons.mp hg with rfl | hm
    · rw [dataAt, if_pos (contains_iff.mpr ⟨hf, hl⟩)]
    · have hle := hr.le_first hm
      rw [dataAt, if_neg (by rw [contains_iff]; omega), ih hr hm]

theorem dataAt_cons_of_gt {rng : MutableRange δ} {c} (h : rng.last < c)
    (rest : List (MutableRange δ)) : dataAt (rng :: rest) c = dataAt rest c := by
  rw [dataAt, if_neg]
  rw [contains_iff]
  omega

theorem dataAt_cons_of_mem {rng : MutableRange δ} {c} (hf : rng.first ≤ c)
    (hl : c ≤ rng.last) (rest : List (MutableRange δ)) :
    dataAt (rng :: rest) c = some rng.data := by
  rw [dataAt, if_pos (contains_iff.mpr ⟨hf, hl⟩)]

/-- Where a range starts does not matter after it has started. -/
theorem dataAt_cons_congr {first first' last c val} (h : first ≤ c) (h' : first' ≤ c)
    (rest : List (MutableRange δ)) :
    dataAt (⟨first, last, val⟩ :: rest) c = dataAt (⟨first', last, val⟩ :: rest) c := by
  simp [dataAt, contains, h, h']

theorem SortedFrom.dataAt_cons_of_lt {low} {rng : MutableRange δ}
    {rest : List (MutableRange δ)} (hs : SortedFrom low (rng :: rest)) {c : Nat}
    (hc : c < rng.first) : dataAt (rng :: rest) c = none := by
  have hf : SortedFrom rng.first (rng :: rest) := ⟨Nat.le_refl _, hs.2⟩
  exact hf.dataAt_eq_none hc

theorem advance_zero (rs : List (MutableRange δ)) : advance 0 rs = rs := by
  cases rs <;> rfl

/-! ### The data of an extended list -/

/-- A sorted list gives the data of every character from `low` on. -/
def Represents (low : Nat) (ranges : List (MutableRange δ)) (data : Nat → Option δ) : Prop :=
  SortedFrom low ranges ∧ ∀ c, low ≤ c → dataAt ranges c = data c

namespace Represents

variable {low : Nat} {rs : List (MutableRange δ)} {data data' : Nat → Option δ}

theorem congr (h : Represents low rs data) (hd : ∀ c, low ≤ c → data c = data' c) :
    Represents low rs data' :=
  ⟨h.1, fun c hc => (h.2 c hc).trans (hd c hc)⟩

/-- A range in front, with no data between `low` and its first character. -/
theorem cons {first last} {val : δ} (hlw : low ≤ first) (hg : first ≤ last)
    (hgp : ∀ c, low ≤ c → c < first → data c = none)
    (hin : ∀ c, first ≤ c → c ≤ last → data c = some val)
    (h : Represents (last + 1) rs data) : Represents low (⟨first, last, val⟩ :: rs) data := by
  have hs : SortedFrom first (⟨first, last, val⟩ :: rs) := ⟨Nat.le_refl _, hg, h.1⟩
  refine ⟨hs.mono hlw, ?_⟩
  intro c hc
  by_cases hl : last < c
  · rw [dataAt_cons_of_gt hl, h.2 c hl]
  · by_cases hf : first ≤ c
    · rw [dataAt_cons_of_mem hf (Nat.le_of_not_lt hl), hin c hf (Nat.le_of_not_lt hl)]
    · rw [hs.dataAt_eq_none (Nat.lt_of_not_le hf), hgp c hc (Nat.lt_of_not_le hf)]

end Represents

variable (converter : DataConverter δ ε)

/-- The data of a character in the extended list. -/
def merged (self : List (MutableRange δ)) (other : List (MutableRange ε)) (c : Nat) : Option δ :=
  converter.merge (dataAt self c) (dataAt other c)

section

variable {low : Nat} {active : MutableRange δ} {rng : MutableRange ε}
  {self : List (MutableRange δ)} {rest : List (MutableRange ε)}
  (hsl : SortedFrom low (active :: self)) (ho : SortedFrom low (rng :: rest)) {c : Nat}

include hsl ho in
theorem merged_of_lt (ha : c < active.first) (hg : c < rng.first) :
    merged converter (active :: self) (rng :: rest) c = none := by
  rw [merged, hsl.dataAt_cons_of_lt ha, ho.dataAt_cons_of_lt hg]
  rfl

include ho in
theorem merged_of_mem_left (hf : active.first ≤ c) (hl : c ≤ active.last) (hg : c < rng.first) :
    merged converter (active :: self) (rng :: rest) c = some active.data := by
  rw [merged, dataAt_cons_of_mem hf hl, ho.dataAt_cons_of_lt hg]
  rfl

include hsl in
theorem merged_of_mem_right (ha : c < active.first) (hf : rng.first ≤ c) (hl : c ≤ rng.last) :
    merged converter (active :: self) (rng :: rest) c = some (converter.convert rng.data) := by
  rw [merged, hsl.dataAt_cons_of_lt ha, dataAt_cons_of_mem hf hl]
  rfl

theorem merged_of_mem (hf : max active.first rng.first ≤ c) (ha : c ≤ active.last)
    (hg : c ≤ rng.last) :
    merged converter (active :: self) (rng :: rest) c =
      some (converter.extend active.data rng.data) := by
  rw [merged, dataAt_cons_of_mem (by omega) ha, dataAt_cons_of_mem (by omega) hg]
  rfl

theorem merged_left_of_gt (h : active.last < c) (oth : List (MutableRange ε)) :
    merged converter (active :: self) oth c = merged converter self oth c := by
  rw [merged, dataAt_cons_of_gt h, merged]

theorem merged_right_of_gt (h : rng.last < c) (self : List (MutableRange δ)) :
    merged converter self (rng :: rest) c = merged converter self rest c := by
  rw [merged, dataAt_cons_of_gt h, merged]

end

theorem represents_leftPart {low off} {active : MutableRange δ} {rng : MutableRange ε}
    {self tail : List (MutableRange δ)} {rest : List (MutableRange ε)}
    (hsl : SortedFrom low (active :: self)) (ho : SortedFrom low (advance off (rng :: rest)))
    (ha : rng.first + off ≤ active.last) (hg : active.first ≤ rng.last)
    (htl : Represents (max active.first (rng.first + off)) tail
      (merged converter (active :: self) (advance off (rng :: rest)))) :
    Represents low (leftPart converter active rng off ++ tail)
      (merged converter (active :: self) (advance off (rng :: rest))) := by
  rw [advance] at ho htl ⊢
  have hlw := hsl.1
  have hlw' := ho.1
  rw [leftPart]
  split_ifs with hlf hrg
  · have hst : max active.first (rng.first + off) = rng.first + off - 1 + 1 := by omega
    rw [hst] at htl
    refine Represents.cons hlw (by omega) ?_ ?_ htl
    · intro c _ hc
      exact merged_of_lt converter hsl ho hc (Nat.lt_trans hc hlf)
    · intro c hf hl
      exact merged_of_mem_left converter ho hf (by omega) (by dsimp only; omega)
  · have hst : max active.first (rng.first + off) = active.first - 1 + 1 := by omega
    rw [hst] at htl
    refine Represents.cons hlw' (by omega) ?_ ?_ htl
    · intro c _ hc
      exact merged_of_lt converter hsl ho (Nat.lt_trans hc hrg) hc
    · intro c hf hl
      exact merged_of_mem_right converter hsl (by omega) hf (by dsimp only; omega)
  · refine ⟨htl.1.mono (by omega), ?_⟩
    intro c hc
    by_cases hst : max active.first (rng.first + off) ≤ c
    · exact htl.2 c hst
    · rw [merged_of_lt converter hsl ho (by omega) (by dsimp only; omega)]
      exact htl.1.dataAt_eq_none (by omega)

variable {oth : List (MutableRange ε)}

theorem represents_extendFrom {low self off}
    (hsl : SortedFrom low self) (ho : SortedFrom low (advance off oth)) :
    Represents low (extendFrom converter self oth off)
      (merged converter self (advance off oth)) := by
  fun_induction extendFrom converter self oth off generalizing low with
  | case1 self off => exact ⟨hsl, fun c _ => by simp [merged, advance, dataAt]⟩
  | case2 rng rest off ih =>
    have htl := ih trivial ((advance_zero rest).symm ▸ ho.2.2)
    refine Represents.cons ho.1 ho.2.1 ?_ ?_ (htl.congr ?_)
    · intro c _ hc
      rw [merged, advance, ho.dataAt_cons_of_lt hc]
      rfl
    · intro c hf hl
      rw [merged, advance, dataAt_cons_of_mem (by exact hf) (by exact hl)]
      rfl
    · intro c hc
      rw [advance_zero]
      exact (merged_right_of_gt converter (by exact hc) []).symm
  | case3 active self rng rest off hlt ih =>
    have htl := ih hsl.2.2 ⟨hlt, ho.2⟩
    refine Represents.cons hsl.1 hsl.2.1 ?_ ?_ (htl.congr ?_)
    · intro c _ hc
      have hl := hsl.2.1
      exact merged_of_lt converter hsl ho hc (by dsimp only; omega)
    · intro c hf hl
      exact merged_of_mem_left converter ho hf hl (Nat.lt_of_le_of_lt hl hlt)
    · intro c hc
      exact (merged_left_of_gt converter hc _).symm
  | case4 active self rng rest off hlt hlt' ih =>
    have htl := ih ⟨hlt', hsl.2⟩ ((advance_zero rest).symm ▸ ho.2.2)
    refine Represents.cons ho.1 ho.2.1 ?_ ?_ (htl.congr ?_)
    · intro c _ hc
      have hl := ho.2.1
      exact merged_of_lt converter hsl ho (by dsimp only at hc hl; omega) hc
    · intro c hf hl
      exact merged_of_mem_right converter hsl (Nat.lt_of_le_of_lt hl hlt') hf hl
    · intro c hc
      rw [advance_zero]
      exact (merged_right_of_gt converter (by exact hc) _).symm
  | case5 active self rng rest off hlt hlt' ihEqual ihLonger ihShorter =>
    apply represents_leftPart converter hsl ho (by omega) (by omega)
    have ha := hsl.2.1
    have hg : rng.first + off ≤ rng.last := ho.2.1
    split_ifs with heq hgt
    · have htl := ihEqual hsl.2.2 (by rw [advance_zero, heq]; exact ho.2.2)
      refine Represents.cons (Nat.le_refl _) (by omega) (by omega) ?_ (htl.congr ?_)
      · intro c hf hl
        exact merged_of_mem converter hf hl (heq ▸ hl)
      · intro c hc
        rw [advance_zero, merged_left_of_gt converter hc, advance,
          merged_right_of_gt converter (by exact heq ▸ hc)]
    · have htl := ihLonger ⟨Nat.le_refl _, hgt, hsl.2.2⟩ ((advance_zero rest).symm ▸ ho.2.2)
      refine Represents.cons (Nat.le_refl _) (by omega) (by omega) ?_ (htl.congr ?_)
      · intro c hf hl
        exact merged_of_mem converter hf (by omega) hl
      · intro c (hc : rng.last + 1 ≤ c)
        rw [advance_zero, advance, merged_right_of_gt converter (by exact hc)]
        exact congrArg (converter.merge · _) (dataAt_cons_congr hc (by omega) self)
    · have htl := ihShorter hsl.2.2 ⟨by dsimp only; omega, by dsimp only; omega, ho.2.2⟩
      refine Represents.cons (Nat.le_refl _) (by omega) (by omega) ?_ (htl.congr ?_)
      · intro c hf hl
        exact merged_of_mem converter hf hl (Nat.le_trans hl (Nat.le_of_not_lt hgt))
      · intro c hc
        rw [merged_left_of_gt converter hc]
        exact congrArg (converter.merge _) (dataAt_cons_congr (by omega) (by omega) rest)

/-- Extending a sorted list by a sorted list gives a sorted list. -/
theorem SortedFrom.extend {self} (hsl : SortedFrom 0 self) (ho : SortedFrom 0 oth) :
    SortedFrom 0 (extend converter self oth) :=
  (represents_extendFrom converter hsl ((advance_zero oth).symm ▸ ho)).1

/-- Extending a list joins the data of every character. -/
theorem dataAt_extend {self} (hsl : SortedFrom 0 self) (ho : SortedFrom 0 oth) (c : Nat) :
    dataAt (MutableRange.extend converter self oth) c =
      converter.merge (dataAt self c) (dataAt oth c) := by
  have he := represents_extendFrom converter hsl ((advance_zero oth).symm ▸ ho)
  rw [MutableRange.extend, he.2 c (Nat.zero_le c), merged, advance_zero]

end MutableRange

/-! ### Range lists -/

structure MutableRangeList (δ : Type*) where
  ranges : List (MutableRange δ)
  sorted : MutableRange.SortedFrom 0 ranges

namespace MutableRangeList

def empty : MutableRangeList δ := ⟨[], trivial⟩

/-- The ranges of an iterator over a single range. -/
def single (first last : Nat) (h : first ≤ last) (data : δ) : MutableRangeList δ :=
  ⟨[⟨first, last, data⟩], Nat.zero_le first, h, trivial⟩

def dataAt (list : MutableRangeList δ) (c : Nat) : Option δ := MutableRange.dataAt list.ranges c

def extend (self : MutableRangeList δ) (other : MutableRangeList ε)
    (converter : DataConverter δ ε) :
    MutableRangeList δ :=
  ⟨MutableRange.extend converter self.ranges other.ranges,
    self.sorted.extend converter other.sorted⟩

@[simp] theorem dataAt_empty (c : Nat) : (empty : MutableRangeList δ).dataAt c = none := rfl

theorem dataAt_single {first last} (h : first ≤ last) (data : δ) (c : Nat) :
    (single first last h data).dataAt c = if first ≤ c ∧ c ≤ last then some data else none := by
  simp [dataAt, single, MutableRange.dataAt, MutableRange.contains]

theorem dataAt_extend (self : MutableRangeList δ) (oth : MutableRangeList ε)
    (converter : DataConverter δ ε) (c : Nat) :
    (self.extend oth converter).dataAt c = converter.merge (self.dataAt c) (oth.dataAt c) :=
  MutableRange.dataAt_extend converter self.sorted oth.sorted c

end MutableRangeList

end QtWebKit.ContentExtensions
