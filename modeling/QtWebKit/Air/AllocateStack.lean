import Mathlib

/-!
# Stack allocation

Every stack slot gets an offset from the frame pointer. Locked slots, some of which have an
offset already, are placed first, and no slot may overlap them; a spill slot may overlap
another spill slot unless the two interfere. A slot is placed at the first position that
fits, among the one next to the frame pointer and those below the slots it must not overlap.

## Implementation notes

A slot is its index, and zero means that it has no offset yet. Offsets are unbounded; frame
sizes are 32-bit unsigned integers. A set of interfering slots is a list in any order.
`none` is the assertion that is not reached. The call arguments of the code are their offsets;
the size of their area starts with what clients requested before.
-/

namespace QtWebKit.B3.Air

open List Bool Function

/-- The stack slots of the code, and which of them interfere. -/
structure StackSlots where
  count : Nat
  byteSize : Fin count → Nat
  isLocked : Fin count → Bool
  interference : Fin count → List (Fin count)
  byteSize_pos : ∀ slot, 0 < byteSize slot
  interference_symm : ∀ slot other, other ∈ interference slot → slot ∈ interference other

def alignment (byteSize : Nat) : Nat :=
  if byteSize ≤ 1 then 1 else if byteSize ≤ 2 then 2 else if byteSize ≤ 4 then 4 else 8

/-- Add the mask of the remainder and clear its bits. -/
def roundUpToMultipleOf (divisor x : Nat) : Nat :=
  let remainderMask := divisor - 1
  (x + remainderMask) - ((x + remainderMask) &&& remainderMask)

def rangesOverlap (leftMin leftMax rightMin rightMax : Int) : Bool :=
  if leftMin = leftMax then false
  else if rightMin = rightMax then false
  else (leftMin ≤ rightMin && leftMax > rightMin) || (rightMin ≤ leftMin && rightMax > leftMin)

section

variable (slots : StackSlots)

def attemptAssignment (offset : Fin slots.count → Int) (slot : Fin slots.count) (offsetFromFP : Int)
    (otherSlots : List (Fin slots.count)) : Option (Fin slots.count → Int) :=
  let offsetFromFP : Int :=
    -(roundUpToMultipleOf (alignment (slots.byteSize slot)) (-offsetFromFP).toNat : Nat)
  if otherSlots.any fun otherSlot => offset otherSlot ≠ 0 &&
      rangesOverlap offsetFromFP (offsetFromFP + slots.byteSize slot) (offset otherSlot)
        (offset otherSlot + slots.byteSize otherSlot) then
    none
  else some (update offset slot offsetFromFP)

def assign (offset : Fin slots.count → Int) (slot : Fin slots.count)
    (otherSlots : List (Fin slots.count)) : Option (Fin slots.count → Int) :=
  match attemptAssignment slots offset slot (-slots.byteSize slot) otherSlots with
  | some offset => some offset
  | none =>
    otherSlots.findSome? fun otherSlot =>
      if offset otherSlot = 0 then none
      else attemptAssignment slots offset slot (offset otherSlot - slots.byteSize slot) otherSlots

/-- The locked slots with an offset, and those without. -/
def assignedEscapedStackSlots (offset : Fin slots.count → Int) : List (Fin slots.count) :=
  (finRange slots.count).filter fun slot => slots.isLocked slot && offset slot ≠ 0

def escapedStackSlotsWorklist (offset : Fin slots.count → Int) : List (Fin slots.count) :=
  (finRange slots.count).filter fun slot => slots.isLocked slot && offset slot = 0

/-- The loop over the locked slots; the last one of the worklist is taken first. -/
def assignEscaped : List (Fin slots.count) → List (Fin slots.count) → (Fin slots.count → Int) →
    Option (List (Fin slots.count) × (Fin slots.count → Int))
  | [], assigned, offset => some (assigned, offset)
  | slot :: rest, assigned, offset =>
    match assign slots offset slot assigned with
    | none => none
    | some offset => assignEscaped rest (assigned ++ [slot]) offset

/-- The loop over all slots that places those without offset. -/
def assignSpills (assigned : List (Fin slots.count)) : List (Fin slots.count) →
    (Fin slots.count → Int) →
    Option (Fin slots.count → Int)
  | [], offset => some offset
  | slot :: rest, offset =>
    if offset slot ≠ 0 then assignSpills assigned rest offset
    else
      match assign slots offset slot (assigned ++ slots.interference slot) with
      | none => none
      | some offset => assignSpills assigned rest offset

def stackAlignmentBytes : Nat := 16

/-- The frame size for the slots, a 32-bit unsigned integer. -/
def frameSizeForStackSlots (offset : Fin slots.count → Int) : Nat :=
  let size := (finRange slots.count).foldl
    (fun size slot => max size ((-offset slot) % 4294967296).toNat) 0
  roundUpToMultipleOf stackAlignmentBytes size % 4294967296

/-- The assignment phase: an offset for every slot. -/
def assignSlots (offset : Fin slots.count → Int) : Option (Fin slots.count → Int) :=
  match assignEscaped slots (escapedStackSlotsWorklist slots offset).reverse
      (assignedEscapedStackSlots slots offset) offset with
  | none => none
  | some (assigned, offset) => assignSpills slots assigned (finRange slots.count) offset

/-- The area grows to what is requested, in multiples of the stack alignment. -/
def requestCallArgAreaSize (callArgAreaSize size : Nat) : Nat :=
  max callArgAreaSize (roundUpToMultipleOf stackAlignmentBytes size % 4294967296)

/-- The area after the requests of clients and one request for eight bytes of each call
argument. -/
def callArgAreaSize (requests callArgOffsets : List Nat) : Nat :=
  (requests ++ callArgOffsets.map (· + 8)).foldl requestCallArgAreaSize 0

/-- The offsets of the slots and the frame size. -/
def allocateStack (requests callArgOffsets : List Nat) (offset : Fin slots.count → Int) :
    Option ((Fin slots.count → Int) × Nat) :=
  (assignSlots slots offset).map fun offset =>
    (offset, (frameSizeForStackSlots slots offset + callArgAreaSize requests callArgOffsets) %
      4294967296)

end

/-! ### Alignment -/

theorem alignment_eq (byteSize : Nat) : ∃ k ≤ 3, alignment byteSize = 2 ^ k := by
  unfold alignment
  split
  · exact ⟨0, by omega, rfl⟩
  · split
    · exact ⟨1, by omega, rfl⟩
    · split
      · exact ⟨2, by omega, rfl⟩
      · exact ⟨3, by omega, rfl⟩

theorem roundUpToMultipleOf_spec (k x : Nat) :
    2 ^ k ∣ roundUpToMultipleOf (2 ^ k) x ∧ x ≤ roundUpToMultipleOf (2 ^ k) x ∧
      roundUpToMultipleOf (2 ^ k) x < x + 2 ^ k := by
  have hp := Nat.two_pow_pos k
  unfold roundUpToMultipleOf
  dsimp only
  rw [Nat.and_two_pow_sub_one_eq_mod]
  have hmod := Nat.mod_lt (x + (2 ^ k - 1)) hp
  exact ⟨Nat.dvd_sub_mod _, by omega, by omega⟩

/-! ### Placing a slot -/

section

variable {slots : StackSlots} {off : Fin slots.count → Int} {slot : Fin slots.count}
  {othSlots : List (Fin slots.count)}

/-- Two slots at the given offsets have no byte in common. -/
def Apart (slots : StackSlots) (slot : Fin slots.count) (position : Int) (other : Fin slots.count)
    (otherPosition : Int) : Prop :=
  position + slots.byteSize slot ≤ otherPosition ∨ otherPosition + slots.byteSize other ≤ position

theorem rangesOverlap_eq_false {position otherPosition oth} :
    rangesOverlap position (position + slots.byteSize slot) otherPosition
        (otherPosition + slots.byteSize oth) = false ↔
      Apart slots slot position oth otherPosition := by
  have hsl := slots.byteSize_pos slot
  have ho := slots.byteSize_pos oth
  unfold rangesOverlap Apart
  rw [if_neg (by omega), if_neg (by omega)]
  simp only [or_eq_false_iff, and_eq_false_iff, decide_eq_false_iff_not]
  omega

/-- A position for a slot that is below the frame pointer, aligned, and apart from the slots
that have an offset; `room` bytes below the frame pointer are enough for it. -/
structure Position (slots : StackSlots) (offset : Fin slots.count → Int) (slot : Fin slots.count)
    (otherSlots : List (Fin slots.count)) (room position : Int) : Prop where
  neg : position < 0
  aligned : (alignment (slots.byteSize slot) : Int) ∣ position
  apart : ∀ other ∈ otherSlots, offset other ≠ 0 → Apart slots slot position other (offset other)
  room : -position ≤ room + 7

/-- The rounded offset. -/
def rounded (slots : StackSlots) (slot : Fin slots.count) (offsetFromFP : Int) : Int :=
  -(roundUpToMultipleOf (alignment (slots.byteSize slot)) (-offsetFromFP).toNat : Nat)

theorem rounded_spec {offsetFromFP} (h : offsetFromFP < 0) :
    (alignment (slots.byteSize slot) : Int) ∣ rounded slots slot offsetFromFP ∧
      rounded slots slot offsetFromFP ≤ offsetFromFP ∧
        offsetFromFP ≤ rounded slots slot offsetFromFP + 7 := by
  obtain ⟨k, hk, hai⟩ := alignment_eq (slots.byteSize slot)
  have hle : 2 ^ k ≤ 8 := Nat.pow_le_pow_right (by omega) hk
  obtain ⟨hd, hge, hlt⟩ := roundUpToMultipleOf_spec k (-offsetFromFP).toNat
  unfold rounded
  rw [hai]
  exact ⟨(Int.natCast_dvd_natCast.mpr hd).neg_right, by omega, by omega⟩

theorem attemptAssignment_eq_some {offsetFromFP room} (hng : offsetFromFP < 0)
    (hrm : -offsetFromFP ≤ room)
    {off'} (h : attemptAssignment slots off slot offsetFromFP othSlots = some off') :
    ∃ position, off' = update off slot position ∧
      Position slots off slot othSlots room position := by
  unfold attemptAssignment at h
  rw [← rounded] at h
  dsimp only at h
  split at h
  · cases h
  · rename_i hft
    obtain ⟨hd, hle, hge⟩ := @rounded_spec slots slot offsetFromFP hng
    refine ⟨rounded slots slot offsetFromFP, (Option.some.inj h).symm, by omega, hd, ?_, by omega⟩
    intro oth ho has
    rw [← rangesOverlap_eq_false, eq_false_iff]
    intro hov
    exact hft (any_eq_true.mpr ⟨oth, ho, by rw [hov]; simpa using has⟩)

theorem attemptAssignment_isSome {offsetFromFP} (h : ∀ oth ∈ othSlots, off oth ≠ 0 →
      Apart slots slot (rounded slots slot offsetFromFP) oth (off oth)) :
    (attemptAssignment slots off slot offsetFromFP othSlots).isSome := by
  unfold attemptAssignment
  rw [← rounded]
  dsimp only
  rw [if_neg]
  · rfl
  · rw [any_eq_true]
    rintro ⟨oth, ho, hov⟩
    rw [and_eq_true, decide_eq_true_iff] at hov
    have hap := rangesOverlap_eq_false.mpr (h oth ho hov.1)
    exact false_ne_true (hap.symm.trans hov.2)

/-- There is always a position: below the lowest of the other slots. -/
theorem assign_eq_some {extent} (hn : ∀ oth, off oth ≤ 0) (he : ∀ oth, -off oth ≤ extent) :
    ∃ position, assign slots off slot othSlots = some (update off slot position) ∧
      Position slots off slot othSlots (extent + slots.byteSize slot) position := by
  have hp := slots.byteSize_pos slot
  have hz : 0 ≤ extent := by
    have := hn slot
    have := he slot
    omega
  unfold assign
  cases hf : attemptAssignment slots off slot (-slots.byteSize slot) othSlots with
  | some off' =>
    obtain ⟨position, rfl, hps⟩ := @attemptAssignment_eq_some slots off slot othSlots _
      (extent + slots.byteSize slot) (by omega) (by omega) _ hf
    exact ⟨position, rfl, hps⟩
  | none =>
    obtain ⟨lowest, ⟨hm, has⟩, hlw⟩ : ∃ lowest, (lowest ∈ othSlots ∧ off lowest ≠ 0) ∧
        ∀ oth ∈ othSlots, off oth ≠ 0 → off lowest ≤ off oth := by
      have hne : (othSlots.toFinset.filter fun oth => off oth ≠ 0).Nonempty := by
        by_contra hem
        rw [Finset.not_nonempty_iff_eq_empty, Finset.filter_eq_empty_iff] at hem
        have hse := @attemptAssignment_isSome slots off slot othSlots (-slots.byteSize slot)
          fun oth ho has => absurd has (hem (mem_toFinset.mpr ho))
        rw [hf] at hse
        cases hse
      obtain ⟨lowest, hlw, hmn⟩ := Finset.exists_min_image _ off hne
      rw [Finset.mem_filter, mem_toFinset] at hlw
      refine ⟨lowest, hlw, fun oth ho has => ?_⟩
      exact hmn oth (Finset.mem_filter.mpr ⟨mem_toFinset.mpr ho, has⟩)
    have hng := lt_of_le_of_ne (hn lowest) has
    have hse : (attemptAssignment slots off slot (off lowest - slots.byteSize slot)
        othSlots).isSome := by
      apply attemptAssignment_isSome
      intro oth ho ho'
      have hround := (@rounded_spec slots slot (off lowest - slots.byteSize slot) (by omega)).2.1
      have := hlw oth ho ho'
      exact .inl (by omega)
    have hfn : (othSlots.findSome? fun otherSlot =>
        if off otherSlot = 0 then none
        else attemptAssignment slots off slot (off otherSlot - slots.byteSize slot)
          othSlots).isSome := by
      rw [findSome?_isSome_iff]
      exact ⟨lowest, hm, by rwa [if_neg has]⟩
    obtain ⟨off', hof'⟩ := Option.isSome_iff_exists.mp hfn
    obtain ⟨oth, _, ho⟩ := exists_of_findSome?_eq_some hof'
    split at ho
    · cases ho
    · have := hn oth
      have := he oth
      obtain ⟨position, rfl, hps⟩ := @attemptAssignment_eq_some slots off slot othSlots _
        (extent + slots.byteSize slot) (by omega) (by omega) _ ho
      exact ⟨position, hof', hps⟩

end

/-! ### The invariant of the allocation -/

/-- Two slots that must not overlap. -/
def Conflict (slots : StackSlots) (slot other : Fin slots.count) : Prop :=
  slots.isLocked slot = true ∨ slots.isLocked other = true ∨ other ∈ slots.interference slot

theorem Conflict.symm {slots : StackSlots} {slot oth} (h : Conflict slots slot oth) :
    Conflict slots oth slot := by
  obtain h | h | h := h
  · exact .inr (.inl h)
  · exact .inl h
  · exact .inr (.inr (slots.interference_symm slot oth h))

/-- The slots with an offset are where they may be, within `extent` bytes of the frame pointer. -/
structure Allocated (slots : StackSlots) (initial offset : Fin slots.count → Int) (extent : Int) :
    Prop where
  nonpos : ∀ slot, offset slot ≤ 0
  extent : ∀ slot, -offset slot ≤ extent
  kept : ∀ slot, initial slot ≠ 0 → offset slot = initial slot
  aligned : ∀ slot, initial slot = 0 → (alignment (slots.byteSize slot) : Int) ∣ offset slot
  apart : ∀ slot other, slot ≠ other → offset slot ≠ 0 → offset other ≠ 0 →
    Conflict slots slot other →
    Apart slots slot (offset slot) other (offset other)

/-- The room that slots without offset can take. -/
def room (slots : StackSlots) (list : List (Fin slots.count)) : Int :=
  (list.map fun slot => (slots.byteSize slot + 7 : Int)).sum

section

variable {slots : StackSlots} {initial off : Fin slots.count → Int} {extent : Int}

theorem Allocated.mono (h : Allocated slots initial off extent) {extent'}
    (hle : extent ≤ extent') : Allocated slots initial off extent' :=
  { h with extent := fun slot => (h.extent slot).trans hle }

/-- One slot is placed. -/
theorem Allocated.assign (h : Allocated slots initial off extent) {slot}
    (hsl : off slot = 0) (othSlots : List (Fin slots.count))
    (hot : ∀ oth, off oth ≠ 0 → Conflict slots slot oth → oth ∈ othSlots) :
    ∃ off', assign slots off slot othSlots = some off' ∧
      Allocated slots initial off' (extent + (slots.byteSize slot + 7)) ∧ off' slot ≠ 0 ∧
      ∀ oth, oth ≠ slot → off' oth = off oth := by
  obtain ⟨position, hag, hps⟩ :=
    @assign_eq_some slots off slot othSlots extent h.nonpos h.extent
  have hng := hps.neg
  have hrm := hps.room
  have hsm : update off slot position slot = position := update_self _ _ _
  have ho (oth) (hne : oth ≠ slot) :
      update off slot position oth = off oth := update_of_ne hne _ _
  have hpl (oth) (hne : oth ≠ slot) (has : off oth ≠ 0)
      (hc : Conflict slots slot oth) : Apart slots slot position oth (off oth) :=
    hps.apart oth (hot oth has hc) has
  refine ⟨_, hag, ⟨fun oth => ?_, fun oth => ?_, fun oth hi => ?_, fun oth hi => ?_,
    fun first snd hne hf hs hc => ?_⟩, by rw [hsm]; omega, ho⟩
  · by_cases hne : oth = slot
    · rw [hne, hsm]
      omega
    · rw [ho oth hne]
      exact h.nonpos oth
  · by_cases hne : oth = slot
    · rw [hne, hsm]
      omega
    · have := h.extent oth
      rw [ho oth hne]
      omega
  · by_cases hne : oth = slot
    · subst hne
      exact absurd (h.kept oth hi ▸ hsl) hi
    · rw [ho oth hne]
      exact h.kept oth hi
  · by_cases hne : oth = slot
    · rw [hne, hsm]
      exact hps.aligned
    · rw [ho oth hne]
      exact h.aligned oth hi
  · by_cases hon : first = slot
    · subst hon
      rw [ho snd hne.symm] at hs ⊢
      rw [hsm]
      exact hpl snd hne.symm hs hc
    · rw [ho first hon] at hf ⊢
      by_cases ht : snd = slot
      · subst ht
        rw [hsm]
        exact (hpl first hon hf hc.symm).symm
      · rw [ho snd ht] at hs ⊢
        exact h.apart first snd hne hf hs hc

theorem room_cons (slot : Fin slots.count) (rest : List (Fin slots.count)) :
    room slots (slot :: rest) = (slots.byteSize slot + 7) + room slots rest := by
  simp [room]

theorem room_reverse (list : List (Fin slots.count)) :
    room slots list.reverse = room slots list := by
  simp [room]

/-- The locked slots are placed one after another, apart from all slots with an offset. -/
theorem assignEscaped_eq_some (worklist assigned : List (Fin slots.count)) (hnd : worklist.Nodup)
    (h : Allocated slots initial off extent) (hz : ∀ slot ∈ worklist, off slot = 0)
    (has : ∀ slot, off slot ≠ 0 → slot ∈ assigned) :
    ∃ assigned' off', assignEscaped slots worklist assigned off = some (assigned', off') ∧
      Allocated slots initial off' (extent + room slots worklist) ∧
      (∀ slot ∈ worklist, off' slot ≠ 0) ∧ (∀ slot, off slot ≠ 0 → off' slot ≠ 0) ∧
      ∀ slot, off' slot ≠ 0 → slot ∈ assigned' := by
  induction worklist generalizing assigned off extent with
  | nil => exact ⟨assigned, off, rfl, h.mono (by simp [room]), by simp, fun _ => id, has⟩
  | cons slot rest ih =>
    rw [nodup_cons] at hnd
    rw [forall_mem_cons] at hz
    obtain ⟨off', hag, ha, hpl, ho⟩ :=
      h.assign hz.1 assigned fun oth ho _ => has oth ho
    have hkp (oth) (ho' : off oth ≠ 0) : off' oth ≠ 0 := by
      rwa [ho oth (by rintro rfl; exact ho' hz.1)]
    obtain ⟨assigned', off'', hr, ha', hpl', hkp', has'⟩ :=
      ih (assigned ++ [slot]) hnd.2 ha
        (fun oth hm => by
          rw [ho oth (by rintro rfl; exact hnd.1 hm)]
          exact hz.2 oth hm)
        (fun oth ho' => by
          by_cases hne : oth = slot
          · simp [hne]
          · rw [ho oth hne] at ho'
            exact mem_append_left _ (has oth ho'))
    refine ⟨assigned', off'', ?_, ha'.mono ?_, ?_, fun oth => hkp' oth ∘ hkp oth, has'⟩
    · rw [assignEscaped, hag]
      exact hr
    · rw [room_cons]
      omega
    · rw [forall_mem_cons]
      exact ⟨hkp' slot hpl, hpl'⟩

/-- The slots without offset are placed apart from the locked slots and the interfering ones. -/
theorem assignSpills_eq_some (list assigned : List (Fin slots.count))
    (h : Allocated slots initial off extent)
    (hlc : ∀ slot, slots.isLocked slot = true → off slot ≠ 0 ∧ slot ∈ assigned) :
    ∃ off', assignSpills slots assigned list off = some off' ∧
      Allocated slots initial off'
        (extent + room slots (list.filter fun slot => !slots.isLocked slot)) ∧
      (∀ slot ∈ list, off' slot ≠ 0) ∧ ∀ slot, off slot ≠ 0 → off' slot ≠ 0 := by
  induction list generalizing off extent with
  | nil => exact ⟨off, rfl, h.mono (by simp [room]), by simp, fun _ => id⟩
  | cons slot rest ih =>
    have hsz : 0 ≤ (slots.byteSize slot + 7 : Int) := by omega
    by_cases hsl : off slot = 0
    · have hsi : slots.isLocked slot = false := by
        rw [eq_false_iff]
        exact fun hl => (hlc slot hl).1 hsl
      obtain ⟨off', hag, ha, hpl, ho⟩ :=
        h.assign hsl (assigned ++ slots.interference slot) fun oth _ hc => by
          obtain hl | hl | hin := hc
          · rw [hsi] at hl
            cases hl
          · exact mem_append_left _ (hlc oth hl).2
          · exact mem_append_right _ hin
      have hkp (oth) (ho' : off oth ≠ 0) : off' oth ≠ 0 := by
        rwa [ho oth (by rintro rfl; exact ho' hsl)]
      obtain ⟨off'', hr, ha', hpl', hkp'⟩ := ih ha
        fun oth hl => ⟨hkp oth (hlc oth hl).1, (hlc oth hl).2⟩
      refine ⟨off'', ?_, ha'.mono ?_, ?_, fun oth => hkp' oth ∘ hkp oth⟩
      · rw [assignSpills, if_neg (not_not_intro hsl), hag]
        exact hr
      · rw [filter_cons_of_pos (by simp [hsi]), room_cons]
        omega
      · rw [forall_mem_cons]
        exact ⟨hkp' slot hpl, hpl'⟩
    · obtain ⟨off', hr, ha, hpl, hkp⟩ := ih h hlc
      refine ⟨off', by rw [assignSpills, if_pos hsl, hr], ha.mono ?_, ?_, hkp⟩
      · rw [filter_cons]
        split
        · rw [room_cons]
          omega
        · exact le_refl _
      · rw [forall_mem_cons]
        exact ⟨hkp slot hsl, hpl⟩

theorem foldl_max_spec (list : List (Fin slots.count)) (f : Fin slots.count → Nat)
    (start bound : Nat)
    (hst : start ≤ bound) (hbd : ∀ slot ∈ list, f slot ≤ bound) :
    let size := list.foldl (fun size slot => max size (f slot)) start
    start ≤ size ∧ size ≤ bound ∧ ∀ slot ∈ list, f slot ≤ size := by
  induction list generalizing start with
  | nil => exact ⟨le_refl _, hst, by simp⟩
  | cons slot rest ih =>
    rw [forall_mem_cons] at hbd
    obtain ⟨hle, hsz, hr⟩ := ih (max start (f slot)) (by omega) hbd.2
    refine ⟨by rw [foldl_cons]; omega, hsz, forall_mem_cons.mpr ⟨?_, hr⟩⟩
    rw [foldl_cons]
    omega

/-- Rounding up to the stack alignment. -/
theorem roundUp_stackAlignmentBytes_spec (x : Nat) :
    16 ∣ roundUpToMultipleOf stackAlignmentBytes x ∧
      x ≤ roundUpToMultipleOf stackAlignmentBytes x ∧
        roundUpToMultipleOf stackAlignmentBytes x < x + 16 :=
  roundUpToMultipleOf_spec 4 x

theorem requestCallArgAreaSize_spec {area size} (h : 16 ∣ area ∧ area < 4294967296) :
    16 ∣ requestCallArgAreaSize area size ∧ requestCallArgAreaSize area size < 4294967296 := by
  obtain ⟨hd, -⟩ := roundUp_stackAlignmentBytes_spec size
  unfold requestCallArgAreaSize
  omega

theorem callArgAreaSize_spec (requests callArgOffsets : List Nat) :
    16 ∣ callArgAreaSize requests callArgOffsets ∧
      callArgAreaSize requests callArgOffsets < 4294967296 := by
  rw [callArgAreaSize]
  exact foldlRecOn (motive := fun area => 16 ∣ area ∧ area < 4294967296) _ _ (by decide)
    fun _ h _ _ => requestCallArgAreaSize_spec h

/-- The frame with an area of call arguments covers the slots exactly if the furthest of them
and the area fit in 32 bits. -/
theorem frameSize_covers_iff {area} (ha : 16 ∣ area ∧ area < 4294967296)
    (hn : ∀ slot, off slot ≤ 0) :
    (∀ slot, -off slot ≤ ((frameSizeForStackSlots slots off + area) % 4294967296 : Nat)) ↔
      ∀ slot, roundUpToMultipleOf stackAlignmentBytes (-off slot).toNat + area < 4294967296 := by
  unfold frameSizeForStackSlots
  dsimp only
  set size := (finRange slots.count).foldl
    (fun size slot => max size ((-off slot) % 4294967296).toNat) 0 with hsz
  obtain ⟨hsd, hsg, hsl⟩ := roundUp_stackAlignmentBytes_spec size
  have hbd (bound : Nat) (hb : bound < 4294967296) (hle : ∀ slot, -off slot ≤ bound) :
      size ≤ bound ∧ ∀ slot, -off slot ≤ size := by
    have hmd (slot) : ((-off slot) % 4294967296).toNat = (-off slot).toNat := by
      have := hn slot
      have := hle slot
      rw [Int.emod_eq_of_lt (by omega) (by omega)]
    obtain ⟨-, hub, hcv⟩ := foldl_max_spec (finRange slots.count)
      (fun slot => ((-off slot) % 4294967296).toNat) 0 bound (Nat.zero_le _) fun slot _ => by
        have := hle slot
        rw [hmd]
        omega
    refine ⟨hub, fun slot => ?_⟩
    have hsm := hcv slot (mem_finRange slot)
    rw [hmd] at hsm
    omega
  constructor
  · intro hcv slot
    -- the size is at most the frame size, so that neither rounding nor adding has wrapped
    obtain ⟨hub, hle⟩ := hbd _ (Nat.mod_lt _ (by decide)) hcv
    obtain ⟨hd, hg, hl⟩ := roundUp_stackAlignmentBytes_spec (-off slot).toNat
    have := hle slot
    have := hn slot
    omega
  · intro hft slot
    obtain ⟨hub, hle⟩ := hbd (4294967296 - 16 - area) (by omega) fun slot => by
      obtain ⟨hd, hg, hl⟩ := roundUp_stackAlignmentBytes_spec (-off slot).toNat
      have := hft slot
      have := hn slot
      omega
    have := hle slot
    omega

end

/-- The locked slots that have an offset lie below the frame pointer and apart from each other,
and no spill slot has an offset. -/
structure PreAssigned (slots : StackSlots) (offset : Fin slots.count → Int) : Prop where
  nonpos : ∀ slot, offset slot ≤ 0
  spill : ∀ slot, slots.isLocked slot = false → offset slot = 0
  apart : ∀ slot other, slot ≠ other → offset slot ≠ 0 → offset other ≠ 0 →
    Apart slots slot (offset slot) other (offset other)

/-- Slots of one size that all interfere. -/
def uniformSlots (count size : Nat) (hsize : 0 < size) (isLocked : Bool) : StackSlots where
  count := count
  byteSize _ := size
  isLocked _ := isLocked
  interference _ := finRange count
  byteSize_pos _ := hsize
  interference_symm slot _ _ := mem_finRange slot

end QtWebKit.B3.Air
