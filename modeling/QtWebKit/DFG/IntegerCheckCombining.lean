import Mathlib

/-!
# Combining integer checks of a block

The phase replaces the bounds checks of one array by a check of the smallest and one of the largest
index, and the checked additions to one value by additions of the extreme addends.

## Implementation notes

A node is modelled with what the phase reads of it. Edges are compared as they are, use kinds
included. A node passes if it does not leave the optimised code for the values of the edges.
-/

namespace QtWebKit.DFG.IntegerCheckCombining

open List

/-- An edge is a node with a use kind; both are numbered. -/
abbrev Edge := Nat

abbrev NodeId := Nat

/-- The modes of an addition that the phase tells apart. -/
inductive ArithMode where
  | unchecked | checkOverflow | checkOverflowAndNegativeZero

/-- The index of a bounds check: a constant, a value plus a constant, or another value. -/
inductive Index where
  | constant (number : Int32)
  | arithAdd (child1 : Edge) (child2 : Int32)
  | value (edge : Edge)

/-- The nodes of a block. An `arithAdd` adds a constant; `other` is every further node. -/
inductive Node where
  | arithAdd (mode : ArithMode) (child1 : Edge) (child2 : Int32)
  | checkInBounds (index : Index) (length : NodeId)
  | other

/-- What a group of checks has in common. -/
inductive RangeKey where
  | addition (source : Edge)
  | arrayBounds (source : Option Edge) (key : NodeId)
  deriving DecidableEq

/-- The addends of a group. -/
structure Range where
  minBound : Int32 := 0
  maxBound : Int32 := 0
  count : Nat := 0
  hoisted : Bool := false

/-- The group of a node and its addend in it. -/
def rangeKeyAndAddend : Node → Option (RangeKey × Int32)
  | .arithAdd .unchecked _ _ => none
  | .arithAdd _ child1 child2 => some (.addition child1, child2)
  | .checkInBounds (.constant number) length => some (.arrayBounds none length, number)
  | .checkInBounds (.arithAdd child1 child2) length =>
    some (.arrayBounds (some child1) length, child2)
  | .checkInBounds (.value edge) length => some (.arrayBounds (some edge) length, 0)
  | .other => none

/-- One more addend of a group. -/
def Range.add (range : Range) (addend : Int32) : Range :=
  if range.count ≠ 0 then
    if addend > range.maxBound then { range with maxBound := addend, count := range.count + 1 }
    else if addend < range.minBound then { range with minBound := addend, count := range.count + 1 }
    else { range with count := range.count + 1 }
  else { range with minBound := addend, maxBound := addend, count := 1 }

/-- The group has several members, close enough together if it is a group of bounds checks. -/
def isValid (key : RangeKey) (range : Range) : Bool :=
  if range.count < 2 then false
  else match key with
    | .arrayBounds _ _ =>
      -- The difference of two `uint32_t`, shifted by 31 bits.
      (range.maxBound.toInt - range.minBound.toInt) % 2 ^ 32 / 2 ^ 31 = 0
    | .addition _ => true

/-- An addition inserted for its value, which is returned as an index. -/
def insertAdd (mode : ArithMode) (source : Edge) (addend : Int32) : List Node × Index :=
  if addend = 0 then ([], .value source)
  else ([.arithAdd mode source addend], .arithAdd source addend)

/-- The nodes inserted before the first member of a group. -/
def hoist (range : Range) : RangeKey → List Node
  | .addition source =>
    (if range.minBound < 0 then (insertAdd .checkOverflow source range.minBound).1 else []) ++
      if range.maxBound > 0 then (insertAdd .checkOverflow source range.maxBound).1 else []
  | .arrayBounds none key => [.checkInBounds (.constant range.maxBound) key]
  | .arrayBounds (some source) key =>
    let (minAdd, minNode) := insertAdd .unchecked source range.minBound
    let (maxAdd, maxNode) := insertAdd .unchecked source range.maxBound
    minAdd ++ maxAdd ++ [.checkInBounds minNode key, .checkInBounds maxNode key]

/-- What is left of a member. -/
def eliminate (addend : Int32) : RangeKey → List Node
  | .addition source => [.arithAdd .unchecked source addend]
  | .arrayBounds _ _ => []

abbrev RangeMap := RangeKey → Range

/-- One turn of the first loop. -/
def record (map : RangeMap) (node : Node) : RangeMap :=
  match rangeKeyAndAddend node with
  | none => map
  | some (key, addend) => Function.update map key ((map key).add addend)

/-- The first loop. -/
def collect (nodes : List Node) : RangeMap := nodes.foldl record fun _ => {}

/-- The second loop. -/
def combine (map : RangeMap) : List Node → List Node
  | [] => []
  | node :: rest => match rangeKeyAndAddend node with
    | none => node :: combine map rest
    | some (key, addend) =>
      if isValid key (map key) = false then node :: combine map rest
      else if (map key).hoisted then eliminate addend key ++ combine map rest
      else hoist (map key) key ++ eliminate addend key ++
        combine (Function.update map key { map key with hoisted := true }) rest

/-- The nodes of the block after the phase. -/
def handleBlock (nodes : List Node) : List Node := combine (collect nodes) nodes

/-- The value of an index, before it wraps. -/
def Index.eval (values : Edge → Int32) : Index → Int
  | .constant number => number.toInt
  | .arithAdd child1 child2 => (values child1).toInt + child2.toInt
  | .value edge => (values edge).toInt

/-- A bounds check compares unsigned, a checked addition must fit in an `int32_t`. -/
def Node.Passes (values : Edge → Int32) (lengths : NodeId → Nat) : Node → Prop
  | .arithAdd .unchecked _ _ => True
  | .arithAdd _ child1 child2 => -2 ^ 31 ≤ (values child1).toInt + child2.toInt ∧
      (values child1).toInt + child2.toInt < 2 ^ 31
  | .checkInBounds index length => index.eval values % 2 ^ 32 < lengths length
  | .other => True

/-! ### The groups of a block -/

variable {values : Edge → Int32} {lengths : NodeId → Nat} {nodes : List Node} {node : Node}
  {key : RangeKey} {addend : Int32} {range : Range} {map : RangeMap}

/-- The addend lies between the bounds of a group that is not empty. -/
def Range.Has (range : Range) (addend : Int32) : Prop :=
  range.count ≠ 0 ∧ range.minBound ≤ addend ∧ addend ≤ range.maxBound

theorem Range.Has.add (h : range.Has addend) (more : Int32) : (range.add more).Has addend := by
  obtain ⟨hne, hmn, hmx⟩ := h
  simp only [Range.add, Range.Has, Int32.le_iff_toInt_le, Int32.lt_iff_toInt_lt, gt_iff_lt] at *
  split_ifs <;> simp only <;> omega

/-- No group is hoisted yet, and the bounds are in order. -/
def Range.Fresh (range : Range) : Prop :=
  range.hoisted = false ∧ (range.count ≠ 0 → range.minBound ≤ range.maxBound)

theorem Range.Fresh.add (h : range.Fresh) :
    (range.add addend).Fresh ∧ (range.add addend).Has addend := by
  simp only [Range.Fresh, Range.add, Range.Has, Int32.le_iff_toInt_le, Int32.lt_iff_toInt_lt,
    gt_iff_lt] at *
  split_ifs <;> simp only [h.1, true_and] <;> omega

theorem record_cases (map : RangeMap) (node : Node) (key) :
    (∃ addend, rangeKeyAndAddend node = some (key, addend) ∧
        record map node key = (map key).add addend) ∨
      (∀ addend, rangeKeyAndAddend node ≠ some (key, addend)) ∧ record map node key = map key := by
  unfold record
  rcases hd : rangeKeyAndAddend node with _ | ⟨key', addend⟩
  · simp
  · by_cases hk : key = key'
    · subst hk
      simp
    · simp [hk, Ne.symm hk]

/-- After the first loop, the addends of a group lie between its bounds. -/
theorem collect_spec (nodes : List Node) (key : RangeKey) :
    (collect nodes key).Fresh ∧ ∀ node ∈ nodes, ∀ addend,
      rangeKeyAndAddend node = some (key, addend) → (collect nodes key).Has addend := by
  induction nodes using reverseRecOn with
  | nil => exact ⟨⟨rfl, fun h => absurd rfl h⟩, by simp⟩
  | append_singleton nodes last ih =>
    obtain ⟨hf, hha⟩ := ih
    simp only [mem_append, mem_singleton, or_imp, forall_and, forall_eq]
    rw [collect, foldl_append, foldl_cons, foldl_nil, ← collect]
    obtain ⟨addend', hd, heq⟩ | ⟨hd, heq⟩ := record_cases (collect nodes) last key <;> rw [heq]
    · refine ⟨hf.add.1, fun node hm addend h => (hha node hm addend h).add addend', ?_⟩
      rintro addend h
      cases hd.symm.trans h
      exact hf.add.2
    · exact ⟨hf, hha, fun addend h => absurd h (hd addend)⟩

/-! ### The checks of a group -/

theorem eval_insertAdd (mode : ArithMode) (source : Edge) (addend : Int32) :
    (insertAdd mode source addend).2.eval values = (values source).toInt + addend.toInt := by
  rw [insertAdd]
  split_ifs with h
  · rw [h]
    exact (add_zero _).symm
  · rfl

/-- A spread below half of the machine words leaves no room to wrap around between the bounds. -/
theorem wrapped_lt {source low high addend : Int} {length : Nat} (hl : length < 2 ^ 31)
    (hlw : (source + low) % 2 ^ 32 < length) (hhg : (source + high) % 2 ^ 32 < length)
    (hspread : (high - low) % 2 ^ 32 / 2 ^ 31 = 0) (hrange : high - low < 2 ^ 32)
    (hmn : low ≤ addend) (hmx : addend ≤ high) : (source + addend) % 2 ^ 32 < length := by
  omega

section

variable (h : range.Has addend)
include h

theorem addition_fits {source : Edge}
    (hp : ∀ new ∈ hoist range (.addition source), new.Passes values lengths) :
    -2 ^ 31 ≤ (values source).toInt + addend.toInt ∧
      (values source).toInt + addend.toInt < 2 ^ 31 := by
  have hlw := (values source).le_toInt
  have hhg := (values source).toInt_lt
  obtain ⟨-, hmn, hmx⟩ := h
  rw [Int32.le_iff_toInt_le] at hmn hmx
  constructor
  · by_cases hn : range.minBound < 0
    · have hps := hp (.arithAdd .checkOverflow source range.minBound) (by
        simp [hoist, insertAdd, hn, Int32.ne_of_lt hn])
      simp only [Node.Passes] at hps
      omega
    · rw [Int32.lt_iff_toInt_lt, Int32.toInt_zero] at hn
      omega
  · by_cases hpo : range.maxBound > 0
    · have hps := hp (.arithAdd .checkOverflow source range.maxBound) (by
        simp [hoist, insertAdd, hpo, (Int32.ne_of_lt hpo).symm])
      simp only [Node.Passes] at hps
      omega
    · rw [gt_iff_lt, Int32.lt_iff_toInt_lt, Int32.toInt_zero] at hpo
      omega

theorem arrayBounds_lt {source : Edge} {length : NodeId} (hl : lengths length < 2 ^ 31)
    (hv : isValid (.arrayBounds (some source) length) range = true)
    (hp : ∀ new ∈ hoist range (.arrayBounds (some source) length), new.Passes values lengths) :
    ((values source).toInt + addend.toInt) % 2 ^ 32 < lengths length := by
  obtain ⟨-, hmn, hmx⟩ := h
  rw [Int32.le_iff_toInt_le] at hmn hmx
  have hlw := range.minBound.le_toInt
  have hhg := range.maxBound.toInt_lt
  simp only [isValid, Bool.if_false_left, Bool.and_eq_true, decide_eq_true_eq] at hv
  simp only [hoist, mem_append, mem_cons, or_imp, forall_and, forall_eq, Node.Passes,
    eval_insertAdd] at hp
  exact wrapped_lt hl hp.2.1 hp.2.2.1 hv.2 (by omega) hmn hmx

end

/-- The checks inserted for a group cover its members, but for a negative constant index. -/
theorem passes_of_hoist (hl : ∀ length, lengths length < 2 ^ 31)
    (hn : ∀ number length, node = .checkInBounds (.constant number) length → 0 ≤ number)
    (hd : rangeKeyAndAddend node = some (key, addend)) (h : range.Has addend)
    (hv : isValid key range = true) (hp : ∀ new ∈ hoist range key, new.Passes values lengths) :
    node.Passes values lengths := by
  cases node with
  | other => trivial
  | arithAdd mode child1 child2 =>
    cases mode <;> cases hd
    · exact addition_fits h hp
    · exact addition_fits h hp
  | checkInBounds index length =>
    cases index with
    | constant number =>
      cases hd
      have hlw := hn addend length rfl
      have hmx := hp _ (mem_singleton_self _)
      have hlt := range.maxBound.toInt_lt
      obtain ⟨-, -, hle⟩ := h
      rw [Int32.le_iff_toInt_le] at hlw hle
      rw [Int32.toInt_zero] at hlw
      simp only [Node.Passes, Index.eval] at hmx ⊢
      omega
    | arithAdd child1 child2 =>
      cases hd
      exact arrayBounds_lt h (hl length) hv hp
    | value edge =>
      cases hd
      have hlt := arrayBounds_lt h (hl length) hv hp
      rwa [Int32.toInt_zero, add_zero] at hlt

/-! ### The block after the phase -/

/-- The node is in the block, or the checks of its group are, unless they were inserted before. -/
def Covered (map : RangeMap) (block : List Node) (node : Node) : Prop :=
  node ∈ block ∨ ∃ key addend, rangeKeyAndAddend node = some (key, addend) ∧
    isValid key (map key) = true ∧ ((map key).hoisted = false → hoist (map key) key ⊆ block)

theorem Covered.mono {block block'} (h : Covered map block node) (hs : block ⊆ block') :
    Covered map block' node := by
  obtain hm | ⟨key, addend, hd, hv, hh⟩ := h
  · exact .inl (hs hm)
  · exact .inr ⟨key, addend, hd, hv, fun hno => List.Subset.trans (hh hno) hs⟩

theorem combine_covers (map : RangeMap) (hm : node ∈ nodes) :
    Covered map (combine map nodes) node := by
  fun_induction combine map nodes with
  | case1 => cases hm
  | case2 map first rest hd ih =>
    obtain rfl | hm := mem_cons.mp hm
    · exact .inl mem_cons_self
    · exact (ih hm).mono (subset_cons_self _ _)
  | case3 map first rest key addend hd hv ih =>
    obtain rfl | hm := mem_cons.mp hm
    · exact .inl mem_cons_self
    · exact (ih hm).mono (subset_cons_self _ _)
  | case4 map first rest key addend hd hv hh ih =>
    obtain rfl | hm := mem_cons.mp hm
    · exact .inr ⟨key, addend, hd, Bool.eq_true_of_not_eq_false hv, by simp [hh]⟩
    · exact (ih hm).mono (subset_append_right _ _)
  | case5 map first rest key addend hd hv hh ih =>
    have hhs : hoist (map key) key ⊆ hoist (map key) key ++ eliminate addend key ++
        combine (Function.update map key { map key with hoisted := true }) rest := by
      rw [append_assoc]
      exact subset_append_left _ _
    have hvl := Bool.eq_true_of_not_eq_false hv
    obtain rfl | hm := mem_cons.mp hm
    · exact .inr ⟨key, addend, hd, hvl, fun _ => hhs⟩
    · obtain hkp | ⟨key', addend', hd', hv', hh'⟩ := (ih hm).mono (subset_append_right _ _)
      · exact .inl hkp
      · by_cases hk : key' = key
        · subst hk
          exact .inr ⟨key', addend', hd', hvl, fun _ => hhs⟩
        · rw [Function.update_of_ne hk] at hv' hh'
          exact .inr ⟨key', addend', hd', hv', hh'⟩

/-- A run to the end of the combined block meets every check of the block exactly if no check has a
negative constant index. -/
theorem passes_iff_of_handleBlock (nodes : List Node) (values : Edge → Int32)
    (lengths : NodeId → Nat) (hl : ∀ length, lengths length < 2 ^ 31)
    (hruns : ∀ node ∈ handleBlock nodes, node.Passes values lengths) :
    (∀ node ∈ nodes, node.Passes values lengths) ↔
      ∀ number length, .checkInBounds (.constant number) length ∈ nodes → 0 ≤ number := by
  constructor
  · intro hpass number length hm
    have hlt := hpass _ hm
    have hlen := hl length
    have hlow := number.le_toInt
    simp only [Node.Passes, Index.eval] at hlt
    rw [Int32.le_iff_toInt_le, Int32.toInt_zero]
    omega
  · intro hneg node hm
    obtain hkept | ⟨key, addend, hd, hv, hhoist⟩ := combine_covers (collect nodes) hm
    · exact hruns node hkept
    · obtain ⟨hfresh, hhas⟩ := collect_spec nodes key
      refine passes_of_hoist hl (fun number length heq => hneg number length (heq ▸ hm)) hd
        (hhas node hm addend hd) hv fun new hnew => hruns new (hhoist hfresh.1 hnew)

/-- Two checks of one array with constant indices. -/
def twoChecks (index : Int32) : List Node :=
  [.checkInBounds (.constant 5) 0, .checkInBounds (.constant index) 0]

theorem passes_iff_of_handleBlock_three :
    Node.Passes (fun _ => 0) (fun _ => 10) (.checkInBounds (.constant 3) 0) := by
  refine (passes_iff_of_handleBlock (twoChecks 3) _ _ (fun _ => by decide) ?_).mpr ?_ _
    (by simp [twoChecks])
  · rw [show handleBlock (twoChecks 3) = [.checkInBounds (.constant 5) 0] from rfl]
    simp only [mem_singleton, forall_eq, Node.Passes, Index.eval]
    decide
  · intro number length hm
    simp only [twoChecks, mem_cons, not_mem_nil, or_false, Node.checkInBounds.injEq,
      Index.constant.injEq] at hm
    obtain ⟨rfl, -⟩ | ⟨rfl, -⟩ := hm <;> decide

/-- The check at -1 is removed, and would have failed. -/
theorem twoChecks_removed :
    (∀ node ∈ handleBlock (twoChecks (-1)), node.Passes (fun _ => 0) fun _ => 10) ∧
      ¬∀ node ∈ twoChecks (-1), node.Passes (fun _ => 0) fun _ => 10 := by
  rw [show handleBlock (twoChecks (-1)) = [.checkInBounds (.constant 5) 0] from rfl]
  simp only [twoChecks, mem_cons, not_mem_nil, or_false, forall_eq, forall_eq_or_imp,
    Node.Passes, Index.eval]
  decide

end QtWebKit.DFG.IntegerCheckCombining
