import Mathlib

/-!
# Sets of time ranges

A `PlatformTimeRanges` object holds half-open ranges of times, in order and apart from each
other. `add` merges the new range with all that it overlaps or touches, and every other operation
is made of it.

## Implementation notes

Times are any linear order whose bounds are the two infinities. `add` keeps the index of the
source as what it has passed: `previous` is the range before the index.
-/

namespace QtWebKit.PlatformTimeRanges

open List

/-- The points from `start` up to but not including `stop`. -/
structure Range (Time : Type) where
  start : Time
  stop : Time
deriving DecidableEq

variable {Time : Type} [LinearOrder Time]

namespace Range

def isPointInRange (range : Range Time) (point : Time) : Bool :=
  range.start ≤ point && point < range.stop

def isOverlappingRange (self range : Range Time) : Bool :=
  self.isPointInRange range.start || self.isPointInRange range.stop ||
    range.isPointInRange self.start

def isContiguousWithRange (self range : Range Time) : Bool :=
  range.start == self.stop || range.stop == self.start

def unionWithOverlappingOrContiguousRange (self range : Range Time) : Range Time :=
  ⟨min self.start range.start, max self.stop range.stop⟩

def isBeforeRange (self range : Range Time) : Bool :=
  self.stop ≤ range.start

theorem isBeforeRange_iff {self rng : Range Time} :
    self.isBeforeRange rng = true ↔ self.stop ≤ rng.start :=
  decide_eq_true_iff

theorem union_le {added rng : Range Time} (ha : added.start ≤ added.stop) :
    (added.unionWithOverlappingOrContiguousRange rng).start ≤
      (added.unionWithOverlappingOrContiguousRange rng).stop :=
  (min_le_left _ _).trans (ha.trans (le_max_left _ _))

/-- Two ranges are left apart exactly if one ends strictly before the other starts. -/
theorem merges_iff {added rng : Range Time} (ha : added.start ≤ added.stop)
    (hg : rng.start ≤ rng.stop) :
    (added.isOverlappingRange rng || added.isContiguousWithRange rng) = true ↔
      ¬ added.stop < rng.start ∧ ¬ rng.stop < added.start := by
  simp only [isOverlappingRange, isContiguousWithRange, isPointInRange, Bool.or_eq_true,
    Bool.and_eq_true, decide_eq_true_eq, beq_iff_eq, not_lt]
  grind

end Range

/-- The loop of `add` from the range after `previous` on, and the insertion at its end. -/
def addFrom (previous : Option (Range Time)) (addedRange : Range Time) :
    List (Range Time) → List (Range Time)
  | [] => [addedRange]
  | range :: rest =>
    if addedRange.isOverlappingRange range || addedRange.isContiguousWithRange range then
      addFrom previous (addedRange.unionWithOverlappingOrContiguousRange range) rest
    else if previous.all (·.isBeforeRange addedRange) && addedRange.isBeforeRange range then
      addedRange :: range :: rest
    else
      range :: addFrom (some range) addedRange rest

def add (ranges : List (Range Time)) (range : Range Time) : List (Range Time) :=
  addFrom none range ranges

/-- The ranges of `other` added one after the other. -/
def addAll (ranges other : List (Range Time)) : List (Range Time) :=
  other.foldl add ranges

def copy (ranges other : List (Range Time)) : List (Range Time) :=
  addAll ranges other

def unionWith (ranges other : List (Range Time)) : List (Range Time) :=
  addAll (copy [] ranges) other

section

variable [BoundedOrder Time]

def invert : List (Range Time) → List (Range Time)
  | [] => add [] ⟨⊥, ⊤⟩
  | first :: rest =>
    let inverted := if first.start ≠ ⊥ then add [] ⟨⊥, first.start⟩ else []
    let inverted := addAll inverted
      (List.zipWith (fun range next => ⟨range.stop, next.start⟩) (first :: rest) rest)
    let last := rest.getLastD first
    if last.stop ≠ ⊤ then add inverted ⟨last.stop, ⊤⟩ else inverted

def intersectWith (ranges other : List (Range Time)) : List (Range Time) :=
  let invertedOther := invert (copy [] other)
  invert (unionWith (invert ranges) invertedOther)

end

/-! ## What the ranges stand for -/

/-- Ranges in order, each strictly after the one before it. -/
structure Separated (ranges : List (Range Time)) : Prop where
  le : ∀ range ∈ ranges, range.start ≤ range.stop
  lt : ranges.Pairwise fun range next => range.stop < next.start

def points (ranges : List (Range Time)) : Set Time :=
  {time | ∃ range ∈ ranges, range.start ≤ time ∧ time < range.stop}

/-- A single range of the list spans `range`. -/
def Covers (ranges : List (Range Time)) (range : Range Time) : Prop :=
  ∃ cover ∈ ranges, cover.start ≤ range.start ∧ range.stop ≤ cover.stop

def Within (ranges other : List (Range Time)) : Prop :=
  ∀ range ∈ ranges, Covers other range

variable {rs oth rest : List (Range Time)} {rng added first : Range Time} {time : Time}

@[simp] theorem separated_nil : Separated ([] : List (Range Time)) :=
  ⟨by simp, .nil⟩

theorem separated_cons :
    Separated (rng :: rest) ↔ rng.start ≤ rng.stop ∧
      (∀ next ∈ rest, rng.stop < next.start) ∧ Separated rest := by
  constructor
  · rintro ⟨hle, hlt⟩
    rw [forall_mem_cons] at hle
    rw [pairwise_cons] at hlt
    exact ⟨hle.1, hlt.1, hle.2, hlt.2⟩
  · rintro ⟨hle, hlt, hr⟩
    exact ⟨forall_mem_cons.mpr ⟨hle, hr.le⟩, pairwise_cons.mpr ⟨hlt, hr.lt⟩⟩

@[simp] theorem points_nil : points ([] : List (Range Time)) = ∅ := by
  simp [points]

@[simp] theorem mem_points_cons :
    time ∈ points (rng :: rest) ↔
      (rng.start ≤ time ∧ time < rng.stop) ∨ time ∈ points rest := by
  simp [points]

theorem Separated.eq_of_le (h : Separated rs) {next : Range Time} (hg : rng ∈ rs) (hnx : next ∈ rs)
    (hst : rng.start ≤ next.stop) (hp : next.start ≤ rng.stop) : rng = next := by
  induction rs with
  | nil => cases hg
  | cons first rest ih =>
    obtain ⟨-, hlt, hr⟩ := separated_cons.mp h
    rcases mem_cons.mp hg with rfl | hg' <;> rcases mem_cons.mp hnx with rfl | hnx'
    · rfl
    · exact absurd hp (not_le.mpr (hlt next hnx'))
    · exact absurd hst (not_le.mpr (hlt rng hg'))
    · exact ih hr hg' hnx'

/-- Separated ranges that cover each other are the same. -/
theorem Within.antisymm (hrg : Separated rs)
    (ho : Separated oth) (h : Within rs oth) (h' : Within oth rs) : rs = oth := by
  have hnd {rs : List (Range Time)} (h : Separated rs) : rs.Nodup := by
    refine h.lt.imp_of_mem fun hg _ hlt heq => ?_
    exact (h.le _ hg).not_gt (heq ▸ hlt)
  have hsb {rs oth : List (Range Time)} (hrg : Separated rs)
      (h : Within rs oth) (h' : Within oth rs) : ∀ rng ∈ rs, rng ∈ oth := by
    intro rng hg
    obtain ⟨cover, hc, hst, hp⟩ := h rng hg
    obtain ⟨cover', hc', hst', hp'⟩ := h' cover hc
    have hle := hrg.le rng hg
    obtain rfl := hrg.eq_of_le hg hc' (hle.trans (hp.trans hp'))
      ((hst'.trans hst).trans hle)
    have heq : rng = cover := by
      cases rng
      cases cover
      exact congrArg₂ Range.mk (le_antisymm hst' hst) (le_antisymm hp hp')
    exact heq ▸ hc
  have hpm : rs.Perm oth :=
    (perm_ext_iff_of_nodup (hnd hrg) (hnd ho)).mpr fun rng =>
      ⟨hsb hrg h h' rng, hsb ho h' h rng⟩
  refine hpm.eq_of_pairwise (fun rng next hg hnx hlt hlt' => ?_) hrg.lt ho.lt
  exact absurd hlt' ((hrg.le rng hg).trans_lt (hlt.trans_le (ho.le next hnx))).not_gt

/-- Ranges that overlap or touch are covered by one range. -/
theorem covers_union_iff (ho : Separated oth) (hb : rng.start ≤ added.stop)
    (haf : added.start ≤ rng.stop) :
    Covers oth (added.unionWithOverlappingOrContiguousRange rng) ↔
      Covers oth added ∧ Covers oth rng := by
  constructor
  · rintro ⟨cover, hc, hst, hp⟩
    exact ⟨⟨cover, hc, hst.trans (min_le_left _ _), (le_max_left _ _).trans hp⟩,
      ⟨cover, hc, hst.trans (min_le_right _ _), (le_max_right _ _).trans hp⟩⟩
  · rintro ⟨⟨cover, hc, hst, hp⟩, ⟨cover', hc', hst', hp'⟩⟩
    obtain rfl := ho.eq_of_le hc hc' (hst.trans (haf.trans hp'))
      (hst'.trans (hb.trans hp))
    exact ⟨cover, hc, le_min hst hst', max_le hp hp'⟩

/-! ## Adding a range -/

/-- What `add` does to separated ranges. -/
def merge (added : Range Time) : List (Range Time) → List (Range Time)
  | [] => [added]
  | range :: rest =>
    if added.stop < range.start then added :: range :: rest
    else if range.stop < added.start then range :: merge added rest
    else merge (added.unionWithOverlappingOrContiguousRange range) rest

theorem addFrom_eq_merge {previous} (hrg : Separated rs)
    (ha : added.start ≤ added.stop) (hpr : ∀ rng ∈ previous, rng.stop < added.start)
    (hap : ∀ rng ∈ previous, ∀ next ∈ rs, rng.stop < next.start) :
    addFrom previous added rs = merge added rs := by
  induction rs generalizing previous added with
  | nil => rfl
  | cons rng rest ih =>
    obtain ⟨hg, hlt, hr⟩ := separated_cons.mp hrg
    rw [addFrom, merge]
    by_cases hm : ¬ added.stop < rng.start ∧ ¬ rng.stop < added.start
    · rw [if_pos ((Range.merges_iff ha hg).mpr hm), if_neg hm.1, if_neg hm.2]
      exact ih hr (Range.union_le ha)
        (fun pre hb => lt_min (hpr pre hb) (hap pre hb rng mem_cons_self))
        fun pre hb next hnx =>
          hap pre hb next (mem_cons_of_mem _ hnx)
    · rw [if_neg ((Range.merges_iff ha hg).not.mpr hm)]
      have hal : previous.all (·.isBeforeRange added) = true := by
        cases previous with
        | none => rfl
        | some pre => exact Range.isBeforeRange_iff.mpr (hpr pre rfl).le
      rw [hal, Bool.true_and]
      by_cases hb : added.stop < rng.start
      · rw [if_pos (Range.isBeforeRange_iff.mpr hb.le), if_pos hb]
      · have haf : rng.stop < added.start := by
          by_contra hnt
          exact hm ⟨hb, hnt⟩
        have hn := not_le.mpr (hg.trans_lt (haf.trans_le ha))
        rw [if_neg (Range.isBeforeRange_iff.not.mpr hn), if_neg hb,
          if_pos haf, ih hr ha (by simpa using haf) (by simpa using hlt)]

theorem add_eq_merge (h : Separated rs) (hg : rng.start ≤ rng.stop) : add rs rng = merge rng rs :=
  addFrom_eq_merge h hg (by simp) (by simp)

theorem lt_start_merge {bound} (ha : bound < added.start)
    (hrg : ∀ rng ∈ rs, bound < rng.start) : ∀ rng ∈ merge added rs, bound < rng.start := by
  fun_induction merge added rs with
  | case1 => simpa
  | case2 added rng rest => exact forall_mem_cons.mpr ⟨ha, hrg⟩
  | case3 added rng rest _ _ ih =>
    rw [forall_mem_cons] at hrg ⊢
    exact ⟨hrg.1, ih ha hrg.2⟩
  | case4 added rng rest _ _ ih =>
    rw [forall_mem_cons] at hrg
    exact ih (lt_min ha hrg.1) hrg.2

theorem separated_merge (ha : added.start ≤ added.stop) (hrg : Separated rs) :
    Separated (merge added rs) := by
  fun_induction merge added rs with
  | case1 => simpa [separated_cons]
  | case2 added rng rest hb =>
    obtain ⟨hg, hlt, -⟩ := separated_cons.mp hrg
    refine separated_cons.mpr ⟨ha, forall_mem_cons.mpr ⟨hb, fun next hnx => ?_⟩, hrg⟩
    exact hb.trans (hg.trans_lt (hlt next hnx))
  | case3 added rng rest _ haf ih =>
    obtain ⟨hg, hlt, hr⟩ := separated_cons.mp hrg
    exact separated_cons.mpr ⟨hg, lt_start_merge haf hlt, ih ha hr⟩
  | case4 added rng rest _ _ ih =>
    exact ih (Range.union_le ha) (separated_cons.mp hrg).2.2

theorem points_merge (ha : added.start ≤ added.stop) (hrg : Separated rs) :
    points (merge added rs) = Set.Ico added.start added.stop ∪ points rs := by
  fun_induction merge added rs with
  | case1 =>
    ext time
    simp
  | case2 =>
    ext time
    simp
  | case3 added rng rest _ _ ih =>
    ext time
    rw [mem_points_cons, ih ha (separated_cons.mp hrg).2.2]
    simp only [Set.mem_union, mem_points_cons]
    exact or_left_comm
  | case4 added rng rest hb haf ih =>
    obtain ⟨hg, -, hr⟩ := separated_cons.mp hrg
    rw [ih (Range.union_le ha) hr]
    ext time
    have hu : time ∈ Set.Ico (min added.start rng.start) (max added.stop rng.stop) ↔
        time ∈ Set.Ico added.start added.stop ∨ (rng.start ≤ time ∧ time < rng.stop) := by
      rw [← Set.Ico_union_Ico' (not_lt.mp hb) (not_lt.mp haf)]
      rfl
    simp only [Range.unionWithOverlappingOrContiguousRange, Set.mem_union, mem_points_cons,
      hu, or_assoc]

/-- `merge` gives the least separated ranges that cover both. -/
theorem within_merge_iff (ha : added.start ≤ added.stop) (hrg : Separated rs) (ho : Separated oth) :
    Within (merge added rs) oth ↔ Covers oth added ∧ Within rs oth := by
  fun_induction merge added rs with
  | case1 => simp [Within]
  | case2 => exact forall_mem_cons
  | case3 added rng rest _ _ ih =>
    rw [Within, Within, forall_mem_cons, forall_mem_cons, and_left_comm]
    exact and_congr_right fun _ => ih ha (separated_cons.mp hrg).2.2
  | case4 added rng rest hb haf ih =>
    have hr := (separated_cons.mp hrg).2.2
    rw [ih (Range.union_le ha) hr, Within, Within, forall_mem_cons, ← and_assoc]
    refine and_congr_left fun _ => ?_
    exact covers_union_iff ho (not_lt.mp hb) (not_lt.mp haf)

theorem separated_add (hrg : Separated rs) (hg : rng.start ≤ rng.stop) :
    Separated (add rs rng) := by
  rw [add_eq_merge hrg hg]
  exact separated_merge hg hrg

section

variable {added : List (Range Time)}

variable (hrg : Separated rs) (ha : ∀ rng ∈ added, rng.start ≤ rng.stop)
include hrg ha

theorem separated_addAll : Separated (addAll rs added) := by
  induction added generalizing rs with
  | nil => exact hrg
  | cons rng rest ih =>
    rw [forall_mem_cons] at ha
    exact ih (separated_add hrg ha.1) ha.2

theorem points_addAll : points (addAll rs added) = points rs ∪ points added := by
  induction added generalizing rs with
  | nil => simp [addAll]
  | cons rng rest ih =>
    rw [forall_mem_cons] at ha
    have had := add_eq_merge hrg ha.1
    rw [addAll, foldl_cons, ← addAll, had,
      ih (separated_merge ha.1 hrg) ha.2, points_merge ha.1 hrg]
    ext time
    simp only [Set.mem_union, mem_points_cons, Set.mem_Ico]
    tauto

theorem within_addAll_iff (ho : Separated oth) :
    Within (addAll rs added) oth ↔ Within rs oth ∧ Within added oth := by
  induction added generalizing rs with
  | nil => simp [addAll, Within]
  | cons rng rest ih =>
    rw [forall_mem_cons] at ha
    rw [addAll, foldl_cons, ← addAll, add_eq_merge hrg ha.1,
      ih (separated_merge ha.1 hrg) ha.2, within_merge_iff ha.1 hrg ho]
    simp only [Within, forall_mem_cons]
    tauto

end

theorem within_refl (rs : List (Range Time)) : Within rs rs :=
  fun rng hg => ⟨rng, hg, le_rfl, le_rfl⟩

/-- Copying leaves exactly the other ranges if these cover all that was held. -/
theorem copy_eq_iff (hrg : Separated rs)
    (ho : Separated oth) : copy rs oth = oth ↔ Within rs oth := by
  have hcp := separated_addAll hrg ho.le
  constructor
  · intro heq
    have hw := (within_addAll_iff hrg ho.le hcp).mp (within_refl _)
    exact heq ▸ hw.1
  · intro hw
    apply Within.antisymm hcp ho
    · exact (within_addAll_iff hrg ho.le ho).mpr ⟨hw, within_refl oth⟩
    · exact ((within_addAll_iff hrg ho.le hcp).mp (within_refl _)).2

theorem copy_nil (ho : Separated oth) : copy [] oth = oth :=
  (copy_eq_iff separated_nil ho).mpr (by simp [Within])

theorem separated_unionWith (hrg : Separated rs) (ho : Separated oth) :
    Separated (unionWith rs oth) := by
  rw [unionWith, copy_nil hrg]
  exact separated_addAll hrg ho.le

theorem points_unionWith (hrg : Separated rs) (ho : Separated oth) :
    points (unionWith rs oth) = points rs ∪ points oth := by
  rw [unionWith, copy_nil hrg, points_addAll hrg ho.le]

/-! ## Complement and intersection -/

section

variable [BoundedOrder Time]

theorem mem_gaps_iff (h : Separated (first :: rest)) :
    (time ∈ points (zipWith (fun rng next => ⟨rng.stop, next.start⟩)
        (first :: rest) rest) ∨ (rest.getLastD first).stop ≤ time ∧ time < ⊤) ↔
      first.stop ≤ time ∧ time < ⊤ ∧ time ∉ points rest := by
  induction rest generalizing first with
  | nil => simp
  | cons next rest ih =>
    obtain ⟨-, hlt, hr⟩ := separated_cons.mp h
    obtain ⟨hle, hln, -⟩ := separated_cons.mp hr
    have haf (hpn : time ∈ points rest) : next.stop < time := by
      obtain ⟨rng, hg, hst, -⟩ := hpn
      exact (hln rng hg).trans_le hst
    have hf := hlt next mem_cons_self
    have ht : time < next.start → time < ⊤ := fun hb => hb.trans_le le_top
    rw [zipWith_cons_cons, mem_points_cons, or_assoc, getLastD_cons, ih hr, mem_points_cons]
    grind

omit [BoundedOrder Time] in
theorem gaps_le (h : Separated (first :: rest)) :
    ∀ rng ∈ zipWith (fun rng next => (⟨rng.stop, next.start⟩ : Range Time))
      (first :: rest) rest, rng.start ≤ rng.stop := by
  induction rest generalizing first with
  | nil => simp
  | cons next rest ih =>
    obtain ⟨-, hlt, hr⟩ := separated_cons.mp h
    rw [zipWith_cons_cons, forall_mem_cons]
    exact ⟨(hlt next mem_cons_self).le, ih hr⟩

/-- The ranges that `invert` adds to the empty object. -/
def inverses (first : Range Time) (rest : List (Range Time)) : List (Range Time) :=
  (if first.start ≠ ⊥ then [⟨⊥, first.start⟩] else []) ++
    List.zipWith (fun range next => ⟨range.stop, next.start⟩) (first :: rest) rest ++
    if (rest.getLastD first).stop ≠ ⊤ then [⟨(rest.getLastD first).stop, ⊤⟩] else []

theorem invert_cons (first : Range Time) (rest : List (Range Time)) :
    invert (first :: rest) = addAll [] (inverses first rest) := by
  simp only [invert, inverses, addAll, foldl_append]
  split_ifs <;> rfl

theorem mem_inverses_iff (h : Separated (first :: rest)) :
    time ∈ points (inverses first rest) ↔ time < ⊤ ∧ time ∉ points (first :: rest) := by
  obtain ⟨hle, hlt, hr⟩ := separated_cons.mp h
  have happ (left right) :
      time ∈ points (left ++ right) ↔ time ∈ points left ∨ time ∈ points right := by
    simp [points, or_and_right, exists_or]
  have hf : time ∈ points (if first.start ≠ ⊥ then [⟨⊥, first.start⟩] else []) ↔
      time < first.start := by
    split_ifs with hbt
    · simp
    · simp [not_not.mp hbt]
  have hl : time ∈ points (if (rest.getLastD first).stop ≠ ⊤ then
      [⟨(rest.getLastD first).stop, ⊤⟩] else []) ↔
      (rest.getLastD first).stop ≤ time ∧ time < ⊤ := by
    split_ifs with ht
    · simp
    · rw [not_not.mp ht, points_nil, Set.mem_empty_iff_false, false_iff]
      exact fun hl => hl.2.not_ge hl.1
  have hb (hpn : time ∈ points rest) : first.stop < time := by
    obtain ⟨rng, hg, hst, -⟩ := hpn
    exact (hlt rng hg).trans_le hst
  have ht : time < first.start → time < ⊤ := fun hst => hst.trans_le le_top
  rw [inverses, happ, happ, hf, hl, or_assoc, mem_gaps_iff h, mem_points_cons]
  grind

theorem inverses_le (h : Separated (first :: rest)) :
    ∀ rng ∈ inverses first rest, rng.start ≤ rng.stop := by
  simp only [inverses, forall_mem_append]
  refine ⟨⟨?_, gaps_le h⟩, ?_⟩
  · split_ifs <;> simp
  · split_ifs <;> simp

theorem separated_invert (h : Separated rs) : Separated (invert rs) := by
  cases rs with
  | nil => simpa [invert, add, addFrom] using separated_cons.mpr ⟨bot_le, by simp, separated_nil⟩
  | cons first rest =>
    rw [invert_cons]
    exact separated_addAll separated_nil (inverses_le h)

theorem points_invert (h : Separated rs) : points (invert rs) = Set.Iio ⊤ \ points rs := by
  ext time
  cases rs with
  | nil => simp [invert, add, addFrom]
  | cons first rest =>
    rw [invert_cons, points_addAll separated_nil (inverses_le h), points_nil, Set.empty_union,
      mem_inverses_iff h]
    rfl

theorem points_subset_Iio (rs : List (Range Time)) : points rs ⊆ Set.Iio ⊤ := by
  rintro time ⟨rng, -, -, hlt⟩
  exact hlt.trans_le le_top

theorem points_intersectWith (hrg : Separated rs) (ho : Separated oth) :
    points (intersectWith rs oth) = points rs ∩ points oth := by
  have hi := separated_invert ho
  calc
    points (intersectWith rs oth)
      = Set.Iio ⊤ \ ((Set.Iio ⊤ \ points rs) ∪ (Set.Iio ⊤ \ points oth)) := by
        rw [intersectWith, copy_nil ho, points_invert (separated_unionWith (separated_invert hrg)
          hi), points_unionWith (separated_invert hrg) hi, points_invert hrg, points_invert ho]
    _ = points rs ∩ points oth := by
        rw [← Set.sdiff_inter, Set.sdiff_sdiff_right_self]
        exact Set.inter_eq_right.mpr (Set.inter_subset_left.trans (points_subset_Iio rs))

end

/-! ## Runs over several objects -/

section

variable [BoundedOrder Time]

/-- The operations on numbered objects; `add` and the constructor assert the order of the ends. -/
inductive Command (Time : Type) [LinearOrder Time]
  | construct (target : Nat)
  | constructRange (target : Nat) (range : Range Time) (h : range.start ≤ range.stop)
  | copyConstruct (target source : Nat)
  | assign (target source : Nat)
  | add (target : Nat) (range : Range Time) (h : range.start ≤ range.stop)
  | unionWith (target source : Nat)
  | intersectWith (target source : Nat)
  | invert (target : Nat)

/-- The ranges that the object of a command holds after it. -/
def Command.result (objects : Nat → List (Range Time)) : Command Time → Nat × List (Range Time)
  | construct target => (target, [])
  | constructRange target range _ => (target, PlatformTimeRanges.add [] range)
  | copyConstruct target source => (target, copy [] (objects source))
  | assign target source => (target, copy (objects target) (objects source))
  | add target range _ => (target, PlatformTimeRanges.add (objects target) range)
  | unionWith target source =>
    (target, PlatformTimeRanges.unionWith (objects target) (objects source))
  | intersectWith target source =>
    (target, PlatformTimeRanges.intersectWith (objects target) (objects source))
  | invert target => (target, PlatformTimeRanges.invert (objects target))

def step (objects : Nat → List (Range Time)) (command : Command Time) : Nat → List (Range Time) :=
  Function.update objects (command.result objects).1 (command.result objects).2

/-- What each command names: the ranges of a copy, the points of the other operations. -/
def Command.Names (objects : Nat → List (Range Time)) (held : List (Range Time)) :
    Command Time → Prop
  | construct _ => held = []
  | constructRange _ range _ => points held = Set.Ico range.start range.stop
  | copyConstruct _ source | assign _ source => held = objects source
  | add target range _ => points held = points (objects target) ∪ Set.Ico range.start range.stop
  | unionWith target source => points held = points (objects target) ∪ points (objects source)
  | intersectWith target source => points held = points (objects target) ∩ points (objects source)
  | invert target => points held = Set.Iio ⊤ \ points (objects target)

/-- After each command its object holds separated ranges that are what the command names. -/
def Faithful (objects : Nat → List (Range Time)) : List (Command Time) → Prop
  | [] => True
  | command :: rest => Separated (command.result objects).2 ∧
      command.Names objects (command.result objects).2 ∧ Faithful (step objects command) rest

/-- Every assignment finds all ranges of its target inside single ranges of its source. -/
def AssignsCovered (objects : Nat → List (Range Time)) : List (Command Time) → Prop
  | [] => True
  | command :: rest =>
    (∀ target source, command = .assign target source →
      Within (objects target) (objects source)) ∧ AssignsCovered (step objects command) rest

variable {objects : Nat → List (Range Time)}

theorem separated_result (h : ∀ tgt, Separated (objects tgt)) (command : Command Time) :
    Separated (command.result objects).2 := by
  cases command with
  | construct tgt => exact separated_nil
  | constructRange tgt rng hle => exact separated_add separated_nil hle
  | copyConstruct tgt src => exact separated_addAll separated_nil (h src).le
  | assign tgt src => exact separated_addAll (h tgt) (h src).le
  | add tgt rng hle => exact separated_add (h tgt) hle
  | unionWith tgt src => exact separated_unionWith (h tgt) (h src)
  | intersectWith tgt src =>
    apply separated_invert
    apply separated_unionWith (separated_invert (h tgt))
    exact separated_invert (separated_addAll separated_nil (h src).le)
  | invert tgt => exact separated_invert (h tgt)

/-- The step: only an assignment can go wrong, exactly if it leaves ranges of its target. -/
theorem names_result_iff (h : ∀ tgt, Separated (objects tgt)) (command : Command Time) :
    command.Names objects (command.result objects).2 ↔
      ∀ tgt src, command = .assign tgt src →
        Within (objects tgt) (objects src) := by
  have had {rs} (hrg : Separated rs) {rng : Range Time}
      (hle : rng.start ≤ rng.stop) : points (PlatformTimeRanges.add rs rng) =
        points rs ∪ Set.Ico rng.start rng.stop := by
    rw [add_eq_merge hrg hle, points_merge hle hrg, Set.union_comm]
  cases command with
  | assign tgt src =>
    simpa [Command.Names, Command.result] using copy_eq_iff (h tgt) (h src)
  | construct tgt => simp [Command.Names, Command.result]
  | constructRange tgt rng hle => simp [Command.Names, Command.result, had separated_nil hle]
  | copyConstruct tgt src => simp [Command.Names, Command.result, copy_nil (h src)]
  | add tgt rng hle => simp [Command.Names, Command.result, had (h tgt) hle]
  | unionWith tgt src =>
    simp [Command.Names, Command.result, points_unionWith (h tgt) (h src)]
  | intersectWith tgt src =>
    simp [Command.Names, Command.result, points_intersectWith (h tgt) (h src)]
  | invert tgt => simp [Command.Names, Command.result, points_invert (h tgt)]

theorem faithful_iff (h : ∀ tgt, Separated (objects tgt)) (commands : List (Command Time)) :
    Faithful objects commands ↔ AssignsCovered objects commands := by
  induction commands generalizing objects with
  | nil => rfl
  | cons command rest ih =>
    have hrs := separated_result h command
    have hs : ∀ tgt, Separated (step objects command tgt) := by
      intro tgt
      rw [step, Function.update_apply]
      split_ifs
      · exact hrs
      · exact h tgt
    rw [Faithful, AssignsCovered, names_result_iff h command, ih hs]
    exact and_iff_right hrs

/-- A run from objects without ranges keeps every object a set of separated ranges and does what
its commands name exactly if every assignment is made to an object whose ranges lie inside single
ranges of the source. -/
theorem faithful_iff_assignsCovered (commands : List (Command Time)) :
    Faithful (fun _ => []) commands ↔ AssignsCovered (fun _ => []) commands :=
  faithful_iff (fun _ => separated_nil) commands

end

/-- Assigning `[2, 3[` to an object that holds `[0, 1[` leaves both. -/
theorem assign_keeps_ranges :
    (Command.assign 0 1).result (fun object => if object = 0 then [⟨0, 1⟩] else [⟨2, 3⟩]) =
      (0, [⟨0, 1⟩, ⟨2, (3 : Fin 4)⟩]) ∧
    ¬ Faithful (fun _ => []) [.constructRange 0 ⟨0, 1⟩ (by decide),
      .constructRange 1 ⟨2, (3 : Fin 4)⟩ (by decide), .assign 0 1] := by
  refine ⟨by decide, fun h => ?_⟩
  have hasg : [⟨0, 1⟩, ⟨2, 3⟩] = [(⟨2, 3⟩ : Range (Fin 4))] := h.2.2.2.2.2.1
  simp at hasg

end QtWebKit.PlatformTimeRanges
