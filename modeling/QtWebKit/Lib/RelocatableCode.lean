import QtWebKit.Lib.ByteOrder
import Mathlib.Algebra.Order.Ring.Int
import Mathlib.Data.List.Basic

/-!
# Code with relative jumps that are linked later

A block of code is a byte string followed by signed little-endian distances to
labels, all of one width and all relative to the start of the block. Emitting a
block writes zeroes for the distances and one fixup for each.
-/

namespace QtWebKit.RelocatableCode

open ByteOrder List Option

variable {L : Type}

/-! ### Signed fields -/

/-- The `width` low bytes of a distance. -/
def signedBytes (width : Nat) (d : Int) : List UInt8 :=
  toLittleEndian width (d % (256 ^ width : Nat)).toNat

@[simp] theorem length_signedBytes (width : Nat) (d : Int) :
    (signedBytes width d).length = width := toLittleEndian_length _ _

/-- The distance stored in `width` bytes from an index on. -/
def readSigned (bytes : List UInt8) (index width : Nat) : Int :=
  Int.bmod (ofLittleEndian ((bytes.drop index).take width)) (256 ^ width)

/-- A distance that its width can hold. -/
def Fits (width : Nat) (d : Int) : Prop := Int.bmod d (256 ^ width) = d

theorem readSigned_append (pre after : List UInt8) {width d} (h : Fits width d) :
    readSigned (pre ++ signedBytes width d ++ after) pre.length width = d := by
  have hp : (0 : Int) < (256 ^ width : Nat) := Int.natCast_pos.mpr (Nat.pow_pos (by decide))
  have hlt : (d % (256 ^ width : Nat)).toNat < 256 ^ width := by
    have := Int.emod_lt_of_pos d hp
    have := Int.emod_nonneg d hp.ne'
    omega
  rw [readSigned, append_assoc, drop_left, take_left' (length_signedBytes width d),
    signedBytes, ofLittleEndian_toLittleEndian, Nat.mod_eq_of_lt hlt,
    Int.toNat_of_nonneg (Int.emod_nonneg d hp.ne'), Int.emod_bmod]
  exact h

/-! ### Blocks -/

structure Block (L : Type) where
  head : List UInt8
  width : Nat
  targets : List L

/-- A distance that is to be written at `index`. -/
structure Fixup (L : Type) where
  width : Nat
  location : Nat
  index : Nat
  target : L

namespace Block

def size (block : Block L) : Nat := block.head.length + block.width * block.targets.length

/-- The zeroes and the fixups of the targets, written from `index` on. -/
def fixupsFrom (width location : Nat) : Nat → List L → List (Fixup L)
  | _, [] => []
  | index, target :: rest =>
    ⟨width, location, index, target⟩ :: fixupsFrom width location (index + width) rest

def unlinked (block : Block L) : List UInt8 :=
  block.head ++ replicate (block.width * block.targets.length) 0

def fixups (location : Nat) (block : Block L) : List (Fixup L) :=
  fixupsFrom block.width location (location + block.head.length) block.targets

theorem length_fixups (loc : Nat) (blk : Block L) :
    (blk.fixups loc).length = blk.targets.length := by
  have hfr (tgts : List L) (idx : Nat) :
      (fixupsFrom blk.width loc idx tgts).length = tgts.length := by
    induction tgts generalizing idx with
    | nil => rfl
    | cons tgt rest ih => rw [fixupsFrom, length_cons, ih, length_cons]
  exact hfr blk.targets _

@[simp] theorem length_unlinked (blk : Block L) : blk.unlinked.length = blk.size := by
  simp [unlinked, size]

end Block

/-- Bytes that were emitted and the fixups in them. -/
structure Code (L : Type) where
  bytes : List UInt8
  fixups : List (Fixup L)

namespace Code

def emit (code : Code L) (block : Block L) : Code L :=
  ⟨code.bytes ++ block.unlinked, code.fixups ++ block.fixups code.bytes.length⟩

/-- Overwrite bytes in place. -/
def setBits (bytes : List UInt8) (index : Nat) (value : List UInt8) : Option (List UInt8) :=
  if index + value.length ≤ bytes.length then
    some (bytes.take index ++ value ++ bytes.drop (index + value.length))
  else none

variable (distance : L → Nat → Nat → Option Int)

/-- Patch one fixup, unless its distance cannot be stored. -/
def linkFixup (bytes : List UInt8) (fixup : Fixup L) : Option (List UInt8) :=
  (distance fixup.target fixup.location fixup.width).bind fun d =>
    setBits bytes fixup.index (signedBytes fixup.width d)

def link (code : Code L) : Option (List UInt8) :=
  code.fixups.foldlM (linkFixup distance) code.bytes

end Code

/-! ### Linked code -/

variable (distance : L → Nat → Nat → Option Int)

def Block.linkedTargets (width location : Nat) (targets : List L) : List UInt8 :=
  targets.flatMap fun target => signedBytes width ((distance target location width).getD 0)

/-- The final bytes of a block. -/
def Block.linked (location : Nat) (block : Block L) : List UInt8 :=
  block.head ++ linkedTargets distance block.width location block.targets

/-- Every distance of a block can be stored. -/
def Block.Linkable (location : Nat) (block : Block L) : Prop :=
  ∀ target ∈ block.targets, (distance target location block.width).isSome = true

def linkedFrom : Nat → List (Block L) → List UInt8
  | _, [] => []
  | location, block :: rest =>
    block.linked distance location ++ linkedFrom (location + block.size) rest

/-- A property of every block, given its location. -/
def AllFrom (P : Nat → Block L → Prop) : Nat → List (Block L) → Prop
  | _, [] => True
  | location, block :: rest => P location block ∧ AllFrom P (location + block.size) rest

def LinkableFrom : Nat → List (Block L) → Prop :=
  AllFrom fun location block => block.Linkable distance location

theorem Block.length_linkedTargets (width loc : Nat) (tgts : List L) :
    (linkedTargets distance width loc tgts).length = width * tgts.length := by
  induction tgts with
  | nil => rfl
  | cons tgt rest ih =>
    rw [linkedTargets, flatMap_cons, length_append, length_signedBytes, ← linkedTargets,
      ih, length_cons]
    ring

@[simp] theorem Block.length_linked (loc : Nat) (blk : Block L) :
    (blk.linked distance loc).length = blk.size := by
  rw [linked, length_append, length_linkedTargets, size]

theorem setBits_append (pre val after : List UInt8) {old : List UInt8}
    (h : old.length = val.length) :
    Code.setBits (pre ++ old ++ after) pre.length val = some (pre ++ val ++ after) := by
  have hdr : (pre ++ old ++ after).drop (pre.length + val.length) = after := by
    rw [← h, ← length_append, drop_left]
  rw [Code.setBits, if_pos (by simp only [length_append]; omega), hdr, append_assoc pre,
    take_left]

variable {distance}

theorem foldlM_fixupsFrom {width loc} {tgts : List L}
    (h : ∀ tgt ∈ tgts, (distance tgt loc width).isSome = true)
    (pre after : List UInt8) (rest : List (Fixup L)) :
    (Block.fixupsFrom width loc pre.length tgts ++ rest).foldlM (Code.linkFixup distance)
        (pre ++ replicate (width * tgts.length) 0 ++ after) =
      rest.foldlM (Code.linkFixup distance)
        (pre ++ Block.linkedTargets distance width loc tgts ++ after) := by
  induction tgts generalizing pre with
  | nil => simp [Block.fixupsFrom, Block.linkedTargets]
  | cons tgt tgts ih =>
    rw [forall_mem_cons] at h
    obtain ⟨d, hd⟩ := isSome_iff_exists.mp h.1
    have hz : pre ++ replicate (width * (tgt :: tgts).length) 0 ++ after =
        pre ++ replicate width 0 ++
          (replicate (width * tgts.length) (0 : UInt8) ++ after) := by
      rw [length_cons, Nat.mul_succ, Nat.add_comm, replicate_add]
      simp only [append_assoc]
    have hpt := ih h.2 (pre ++ signedBytes width d)
    rw [length_append, length_signedBytes, append_assoc] at hpt
    rw [Block.fixupsFrom, cons_append, foldlM_cons, Code.linkFixup, hd, bind_some,
      hz, setBits_append _ _ _ (by simp)]
    change (Block.fixupsFrom width loc (pre.length + width) tgts ++ rest).foldlM
      (Code.linkFixup distance) (pre ++ signedBytes width d ++
        (replicate (width * tgts.length) 0 ++ after)) = _
    rw [hpt, Block.linkedTargets, Block.linkedTargets, flatMap_cons, hd, getD_some]
    simp

theorem isSome_of_foldlM_fixupsFrom {width loc idx tgts rest bs res}
    (h : (Block.fixupsFrom width loc idx tgts ++ rest).foldlM (Code.linkFixup distance)
      bs = some res) : ∀ tgt ∈ tgts, (distance tgt loc width).isSome = true := by
  induction tgts generalizing idx bs with
  | nil => simp
  | cons tgt tgts ih =>
    rw [Block.fixupsFrom, cons_append, foldlM_cons] at h
    obtain ⟨next, hnx, h⟩ := bind_eq_some_iff.mp h
    obtain ⟨d, hd, -⟩ := bind_eq_some_iff.mp hnx
    exact forall_mem_cons.mpr ⟨by rw [hd]; rfl, ih h⟩

/-! ### Emitting and linking a list of blocks -/

/-- The fixups of blocks that start at a location. -/
def fixupsAll : Nat → List (Block L) → List (Fixup L)
  | _, [] => []
  | location, block :: rest => block.fixups location ++ fixupsAll (location + block.size) rest

def emitAll (code : Code L) (blocks : List (Block L)) : Code L := blocks.foldl Code.emit code

theorem emitAll_append (code : Code L) (blks blks' : List (Block L)) :
    emitAll code (blks ++ blks') = emitAll (emitAll code blks) blks' :=
  foldl_append

theorem emitAll_eq (code : Code L) (blks : List (Block L)) :
    emitAll code blks = ⟨code.bytes ++ blks.flatMap Block.unlinked,
      code.fixups ++ fixupsAll code.bytes.length blks⟩ := by
  induction blks generalizing code with
  | nil => simp [emitAll, fixupsAll]
  | cons blk rest ih =>
    rw [emitAll, foldl_cons, ← emitAll, ih, Code.emit]
    simp [fixupsAll]

theorem foldlM_fixupsAll {blks : List (Block L)} {pre : List UInt8}
    (h : LinkableFrom distance pre.length blks) :
    (fixupsAll pre.length blks).foldlM (Code.linkFixup distance)
        (pre ++ blks.flatMap Block.unlinked) =
      some (pre ++ linkedFrom distance pre.length blks) := by
  induction blks generalizing pre with
  | nil => simp [fixupsAll, linkedFrom]
  | cons blk rest ih =>
    have hl : LinkableFrom distance
        (pre ++ blk.linked distance pre.length).length rest := by
      rw [length_append, Block.length_linked]
      exact h.2
    have hr := ih hl
    rw [length_append, Block.length_linked] at hr
    have hbl := foldlM_fixupsFrom h.1 (pre ++ blk.head) (rest.flatMap Block.unlinked)
      (fixupsAll (pre.length + blk.size) rest)
    rw [length_append] at hbl
    rw [fixupsAll, Block.fixups, flatMap_cons, Block.unlinked]
    simp only [append_assoc] at hbl ⊢
    simp only [Block.linked, append_assoc] at hr
    rw [hbl, linkedFrom, hr]
    simp [Block.linked]

theorem linkableFrom_of_foldlM {blks loc bs res}
    (h : (fixupsAll loc blks).foldlM (Code.linkFixup distance) bs = some res) :
    LinkableFrom distance loc blks := by
  induction blks generalizing loc bs with
  | nil => trivial
  | cons blk rest ih =>
    refine ⟨isSome_of_foldlM_fixupsFrom h, ?_⟩
    rw [fixupsAll, foldlM_append] at h
    obtain ⟨next, -, h⟩ := bind_eq_some_iff.mp h
    exact ih h

/-- Linking succeeds exactly if all distances can be stored, and then gives the
linked bytes. -/
theorem link_emitAll (pre : List UInt8) (blks : List (Block L)) (res : List UInt8) :
    (emitAll ⟨pre, []⟩ blks).link distance = some res ↔
      LinkableFrom distance pre.length blks ∧
        res = pre ++ linkedFrom distance pre.length blks := by
  rw [emitAll_eq, Code.link, nil_append]
  constructor
  · intro h
    have hl := linkableFrom_of_foldlM h
    rw [foldlM_fixupsAll hl] at h
    exact ⟨hl, (some.inj h).symm⟩
  · rintro ⟨hl, rfl⟩
    exact foldlM_fixupsAll hl

theorem linkedFrom_append (loc : Nat) (blks blks' : List (Block L)) :
    linkedFrom distance loc (blks ++ blks') =
      linkedFrom distance loc blks ++
        linkedFrom distance (loc + (blks.map Block.size).sum) blks' := by
  induction blks generalizing loc with
  | nil => simp [linkedFrom]
  | cons blk rest ih =>
    rw [cons_append, linkedFrom, ih, linkedFrom, map_cons, sum_cons, append_assoc, Nat.add_assoc]

theorem allFrom_append {P : Nat → Block L → Prop} (loc : Nat) (blks blks' : List (Block L)) :
    AllFrom P loc (blks ++ blks') ↔
      AllFrom P loc blks ∧ AllFrom P (loc + (blks.map Block.size).sum) blks' := by
  induction blks generalizing loc with
  | nil => simp [AllFrom]
  | cons blk rest ih =>
    rw [cons_append, AllFrom, ih, AllFrom, map_cons, sum_cons, and_assoc, Nat.add_assoc]

theorem AllFrom.imp {P Q : Nat → Block L → Prop} {loc} {blks : List (Block L)}
    (h : AllFrom P loc blks)
    (hi : ∀ l blk, l + blk.size ≤ loc + (blks.map Block.size).sum → P l blk → Q l blk) :
    AllFrom Q loc blks := by
  induction blks generalizing loc with
  | nil => trivial
  | cons blk rest ih =>
    rw [map_cons, sum_cons, ← Nat.add_assoc] at hi
    exact ⟨hi loc blk (Nat.le_add_right _ _) h.1, ih h.2 hi⟩

@[simp] theorem length_linkedFrom (loc : Nat) (blks : List (Block L)) :
    (linkedFrom distance loc blks).length = (blks.map Block.size).sum := by
  induction blks generalizing loc with
  | nil => rfl
  | cons blk rest ih =>
    rw [linkedFrom, length_append, Block.length_linked, ih, map_cons, sum_cons]

/-! ### Blocks in a byte string -/

variable (distance) in
/-- The linked bytes of these blocks stand at a location. -/
def Holds (bytes : List UInt8) (location : Nat) (blocks : List (Block L)) : Prop :=
  LinkableFrom distance location blocks ∧
    ∃ before after, before.length = location ∧
      bytes = before ++ (linkedFrom distance location blocks ++ after)

variable {bs : List UInt8} {loc : Nat} {blks blks' : List (Block L)} {blk : Block L}

theorem Holds.left (h : Holds distance bs loc (blks ++ blks')) : Holds distance bs loc blks := by
  obtain ⟨hl, pre, after, hb, hbs⟩ := h
  rw [LinkableFrom, allFrom_append] at hl
  rw [linkedFrom_append, append_assoc] at hbs
  exact ⟨hl.1, pre, _, hb, hbs⟩

theorem Holds.right (h : Holds distance bs loc (blks ++ blks')) :
    Holds distance bs (loc + (blks.map Block.size).sum) blks' := by
  obtain ⟨hl, pre, after, hb, hbs⟩ := h
  rw [LinkableFrom, allFrom_append] at hl
  rw [linkedFrom_append, append_assoc, ← append_assoc pre] at hbs
  refine ⟨hl.2, pre ++ linkedFrom distance loc blks, after, ?_, hbs⟩
  rw [length_append, hb, length_linkedFrom]

theorem Holds.tail (h : Holds distance bs loc (blk :: blks)) :
    Holds distance bs (loc + blk.size) blks := by
  have hrg : Holds distance bs (loc + ([blk].map Block.size).sum) blks :=
    Holds.right h
  rwa [map_singleton, sum_singleton] at hrg

/-- The bytes of a block that do not depend on the labels. -/
theorem Holds.head (h : Holds distance bs loc (blk :: blks)) :
    ∃ pre after, pre.length = loc ∧ bs = pre ++ (blk.head ++ after) := by
  obtain ⟨-, pre, after, hb, hbs⟩ := h
  rw [linkedFrom, Block.linked, append_assoc, append_assoc] at hbs
  exact ⟨pre, _, hb, hbs⟩

/-- The distance that is read for a target is the one that was computed for it. -/
theorem Holds.readSigned_target (h : Holds distance bs loc (blk :: blks)) {k}
    {tgt} (hk : blk.targets[k]? = some tgt) :
    ∃ d, distance tgt loc blk.width = some d ∧
      (Fits blk.width d → readSigned bs (loc + blk.head.length + k * blk.width) blk.width = d) := by
  obtain ⟨hl, pre, after, rfl, rfl⟩ := h
  obtain ⟨d, hd⟩ := Option.isSome_iff_exists.mp (hl.1 tgt (List.mem_of_getElem? hk))
  refine ⟨d, hd, fun hf => ?_⟩
  obtain ⟨hlt, hg⟩ := List.getElem?_eq_some_iff.mp hk
  have ht : blk.targets = blk.targets.take k ++ tgt :: blk.targets.drop (k + 1) := by
    rw [← hg, List.getElem_cons_drop hlt, List.take_append_drop]
  have hln : Block.linkedTargets distance blk.width pre.length blk.targets =
      Block.linkedTargets distance blk.width pre.length (blk.targets.take k) ++
        (signedBytes blk.width d ++
          Block.linkedTargets distance blk.width pre.length (blk.targets.drop (k + 1))) := by
    rw [ht, Block.linkedTargets, flatMap_append, flatMap_cons, hd, Option.getD_some]
    simp only [Block.linkedTargets]
    rw [← ht]
  have hn : pre.length + blk.head.length + k * blk.width =
      (pre ++ blk.head ++
        Block.linkedTargets distance blk.width pre.length (blk.targets.take k)).length := by
    rw [length_append, length_append, Block.length_linkedTargets,
      length_take_of_le hlt.le, Nat.mul_comm]
  rw [linkedFrom, Block.linked, hln, hn]
  have hrd := readSigned_append
    (pre ++ blk.head ++ Block.linkedTargets distance blk.width pre.length (blk.targets.take k))
    (Block.linkedTargets distance blk.width pre.length (blk.targets.drop (k + 1)) ++
      (linkedFrom distance (pre.length + blk.size) blks ++ after)) hf
  simpa only [append_assoc] using hrd

theorem mem_fixupsFrom {width loc idx} {tgts : List L} {fixup : Fixup L}
    (h : fixup ∈ Block.fixupsFrom width loc idx tgts) :
    ∃ k tgt, tgts[k]? = some tgt ∧ fixup = ⟨width, loc, idx + k * width, tgt⟩ := by
  induction tgts generalizing idx with
  | nil => cases h
  | cons tgt rest ih =>
    rcases mem_cons.mp h with rfl | h
    · exact ⟨0, tgt, rfl, by simp⟩
    · obtain ⟨k, tgt, hk, rfl⟩ := ih h
      refine ⟨k + 1, tgt, hk, ?_⟩
      rw [Nat.add_mul, Nat.one_mul, Nat.add_assoc, Nat.add_comm width]

theorem location_le_of_mem_fixupsAll {fixup : Fixup L} (h : fixup ∈ fixupsAll loc blks) :
    fixup.location ≤ loc + (blks.map Block.size).sum := by
  induction blks generalizing loc with
  | nil => cases h
  | cons blk rest ih =>
    rw [map_cons, sum_cons, ← Nat.add_assoc]
    rcases mem_append.mp h with hm | hm
    · obtain ⟨k, tgt, -, rfl⟩ := mem_fixupsFrom hm
      exact (Nat.le_add_right _ _).trans (Nat.le_add_right _ _)
    · exact ih hm

/-- The distance that is read for a fixup is the one that was computed for it. -/
theorem Holds.readSigned_fixup (h : Holds distance bs loc blks) {fixup : Fixup L}
    (hfx : fixup ∈ fixupsAll loc blks) :
    ∃ d, distance fixup.target fixup.location fixup.width = some d ∧
      (Fits fixup.width d → readSigned bs fixup.index fixup.width = d) := by
  induction blks generalizing loc with
  | nil => cases hfx
  | cons blk rest ih =>
    rcases mem_append.mp hfx with hm | hm
    · obtain ⟨k, tgt, hk, rfl⟩ := mem_fixupsFrom hm
      exact h.readSigned_target hk
    · exact ih h.tail hm

end QtWebKit.RelocatableCode
