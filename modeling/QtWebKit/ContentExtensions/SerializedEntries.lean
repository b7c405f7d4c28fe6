import QtWebKit.ContentExtensions.SerializeActions

/-!
# Entries of the action vector

The vector of actions is a sequence of entries. Reading at the location of an
entry gives its type and its characters, whatever was written before and after.
-/

namespace QtWebKit.ContentExtensions

open ByteOrder List

/-- The bytes of one action. -/
def entryBytes (type : ActionType) (string : WTFString) : List SerializedActionByte :=
  if type = .cssDisplayNoneSelector then selectorBytes string else [type.toByte]

/-- An action with the given characters is stored at a location. -/
def EntryAt (actions : List SerializedActionByte) (location : Nat) (type : ActionType)
    (characters : List UInt16) : Prop :=
  ∃ before string after, actions = before ++ entryBytes type string ++ after ∧
    before.length = location ∧
    (if type = .cssDisplayNoneSelector then string.characters else []) = characters

variable {acts : List SerializedActionByte} {characters : List UInt16}

theorem EntryAt.append {loc type} (h : EntryAt acts loc type characters)
    (more : List SerializedActionByte) : EntryAt (acts ++ more) loc type characters := by
  obtain ⟨pre, string, after, rfl, hn, hch⟩ := h
  exact ⟨pre, string, after ++ more, by rw [append_assoc], hn, hch⟩

theorem entryAt_length (acts : List SerializedActionByte) (type : ActionType) (string : WTFString) :
    EntryAt (acts ++ entryBytes type string) acts.length type
      (if type = .cssDisplayNoneSelector then string.characters else []) :=
  ⟨acts, string, [], by rw [append_nil], rfl, rfl⟩

theorem entryBytes_eq_cons (type : ActionType) (string : WTFString) :
    ∃ rest, entryBytes type string = type.toByte :: rest := by
  rw [entryBytes]
  split_ifs with ht
  · rw [ht]
    exact ⟨_, rfl⟩
  · exact ⟨[], rfl⟩

theorem EntryAt.deserializeType {loc} {type : ActionType} (h : EntryAt acts loc type characters)
    (hru : type.isRuleAction = true) : Action.deserializeType acts loc = some type := by
  obtain ⟨pre, string, after, rfl, rfl, -⟩ := h
  obtain ⟨rest, hr⟩ := entryBytes_eq_cons type string
  rw [Action.deserializeType, hr]
  simp [ActionType.ofByte_toByte hru]

theorem EntryAt.lt_length {loc type} (h : EntryAt acts loc type characters) :
    loc < acts.length := by
  obtain ⟨pre, string, after, rfl, rfl, -⟩ := h
  obtain ⟨rest, hr⟩ := entryBytes_eq_cons type string
  simp only [hr, length_append, length_cons]
  omega

/-! ### Selectors -/

theorem readUChars_flatMap (characters : List UInt16) :
    readUChars (characters.flatMap fun c => toLittleEndian 2 c.toNat) = characters := by
  induction characters with
  | nil => rfl
  | cons c rest ih =>
    have hby : toLittleEndian 2 c.toNat = [UInt8.ofNat c.toNat, UInt8.ofNat (c.toNat / 256)] := rfl
    have hrd := ofLittleEndian_toLittleEndian 2 c.toNat
    rw [Nat.mod_eq_of_lt (show c.toNat < 256 ^ 2 from c.toNat_lt), hby] at hrd
    rw [flatMap_cons, hby, cons_append, cons_append, nil_append, readUChars,
      hrd, UInt16.ofNat_toNat, ih]

theorem map_ofNat_toNat_of_narrow (h : ∀ c ∈ characters, c.toNat < 256) :
    (characters.map fun c => UInt8.ofNat c.toNat).map (fun b => UInt16.ofNat b.toNat) =
      characters := by
  rw [map_map]
  calc characters.map ((fun b : UInt8 => UInt16.ofNat b.toNat) ∘ fun c => UInt8.ofNat c.toNat)
      = characters.map id := by
        apply map_congr_left
        intro c hc
        rw [Function.comp_apply, UInt8.toNat_ofNat', Nat.mod_eq_of_lt (h c hc), UInt16.ofNat_toNat,
          id]
    _ = characters := map_id characters

/-- The characters as they are stored. -/
def selectorBody (selector : WTFString) : List SerializedActionByte :=
  if selector.is8Bit then selector.characters.map fun c => UInt8.ofNat c.toNat
  else selector.characters.flatMap fun c => toLittleEndian 2 c.toNat

theorem length_selectorBody (sel : WTFString) :
    (selectorBody sel).length =
      if sel.is8Bit then sel.characters.length else sel.characters.length * 2 := by
  rw [selectorBody]
  split_ifs
  · rw [length_map]
  · simp [length_flatMap]

theorem selectorBytes_eq (sel : WTFString) :
    selectorBytes sel =
      [2] ++ toLittleEndian 4 sel.characters.length ++ [if sel.is8Bit then 0 else 1] ++
        selectorBody sel := by
  simp [selectorBytes, selectorBody, ActionType.toByte]

theorem length_selectorBytes (sel : WTFString) :
    (selectorBytes sel).length = headerLength + (selectorBody sel).length := by
  rw [selectorBytes_eq]
  simp only [length_append, length_singleton, toLittleEndian_length, headerLength]

theorem getD_append_cons {α : Type} (pre : List α) (x d : α) (after : List α) :
    (pre ++ x :: after).getD pre.length d = x := by
  simp

section

variable {pre after : List SerializedActionByte} {sel : WTFString}

theorem selectorHeader_append (hn : (pre ++ selectorBytes sel ++ after).length ≤ maxUnsigned) :
    selectorHeader (pre ++ selectorBytes sel ++ after) pre.length =
      (sel.characters.length, !sel.is8Bit) := by
  have hb := length_selectorBody sel
  have hf : sel.characters.length < 256 ^ 4 := by
    rw [length_append, length_append, length_selectorBytes, hb, maxUnsigned] at hn
    split_ifs at hn <;> omega
  have hrd := ofLittleEndian_toLittleEndian 4 sel.characters.length
  rw [Nat.mod_eq_of_lt hf] at hrd
  rw [selectorHeader, selectorBytes_eq]
  refine Prod.ext ?_ ?_
  · have hsp : pre ++ ([2] ++ toLittleEndian 4 sel.characters.length ++
          [if sel.is8Bit then 0 else 1] ++ selectorBody sel) ++ after =
        (pre ++ [2]) ++ (toLittleEndian 4 sel.characters.length ++
          ([if sel.is8Bit then 0 else 1] ++ selectorBody sel ++ after)) := by
      simp
    rw [hsp, drop_left' (by simp), take_left' (toLittleEndian_length 4 _), hrd]
  · have hsp : pre ++ ([2] ++ toLittleEndian 4 sel.characters.length ++
          [if sel.is8Bit then 0 else 1] ++ selectorBody sel) ++ after =
        (pre ++ [2] ++ toLittleEndian 4 sel.characters.length) ++
          ((if sel.is8Bit then 0 else 1) :: (selectorBody sel ++ after)) := by
      simp
    have hi : pre.length + 5 =
        (pre ++ [2] ++ toLittleEndian 4 sel.characters.length).length := by
      simp
    rw [hsp, hi, getD_append_cons]
    cases sel.is8Bit <;> rfl

theorem drop_header :
    (pre ++ selectorBytes sel ++ after).drop (pre.length + headerLength) =
      selectorBody sel ++ after := by
  rw [selectorBytes_eq]
  have hsp : pre ++ ([2] ++ toLittleEndian 4 sel.characters.length ++
        [if sel.is8Bit then 0 else 1] ++ selectorBody sel) ++ after =
      (pre ++ [2] ++ toLittleEndian 4 sel.characters.length ++
        [if sel.is8Bit then 0 else 1]) ++ (selectorBody sel ++ after) := by
    simp
  rw [hsp, drop_left' (by simp [headerLength])]

end

/-- Reading an entry gives its type and its characters. -/
theorem EntryAt.deserialize {acts : List SerializedActionByte} {loc}
    {type : ActionType} {characters} (h : EntryAt acts loc type characters)
    (hru : type.isRuleAction = true) (hn : acts.length ≤ maxUnsigned) :
    ∃ string : WTFString, string.characters = characters ∧
      Action.deserialize acts loc = some ⟨[], type, loc, string⟩ := by
  have ht := h.deserializeType hru
  obtain ⟨pre, sel, after, rfl, rfl, hch⟩ := h
  by_cases hcs : type = .cssDisplayNoneSelector
  · subst hcs
    rw [if_pos rfl] at hch
    subst hch
    rw [entryBytes, if_pos rfl] at ht hn ⊢
    have hb := length_selectorBody sel
    have htotal : (pre ++ selectorBytes sel ++ after).length =
        pre.length + (headerLength + (selectorBody sel).length) + after.length := by
      rw [List.length_append, List.length_append, length_selectorBytes]
    have hst : (pre.length + headerLength) % (maxUnsigned + 1) = pre.length + headerLength :=
      Nat.mod_eq_of_lt (by omega)
    have hh : ¬ (pre ++ selectorBytes sel ++ after).length <
        pre.length + headerLength := by omega
    rw [Action.deserialize, ht]
    simp only [selectorHeader_append hn, hst, drop_header, if_neg hh]
    cases hnr : sel.is8Bit with
    | true =>
      rw [hnr, if_pos rfl] at hb
      have hf : ¬ (pre ++ selectorBytes sel ++ after).length <
          pre.length + headerLength + sel.characters.length := by omega
      simp only [Bool.not_true, Bool.false_eq_true, if_false, if_neg hf]
      refine ⟨_, ?_, rfl⟩
      rw [← hb, List.take_left, selectorBody, if_pos hnr]
      exact map_ofNat_toNat_of_narrow (sel.narrow hnr)
    | false =>
      rw [hnr, if_neg Bool.false_ne_true] at hb
      have hf : ¬ (pre ++ selectorBytes sel ++ after).length <
          pre.length + headerLength + sel.characters.length * 2 := by omega
      simp only [Bool.not_false, if_true, if_neg hf]
      refine ⟨_, ?_, rfl⟩
      rw [← hb, List.take_left, selectorBody, hnr, if_neg Bool.false_ne_true]
      exact readUChars_flatMap sel.characters
  · rw [if_neg hcs] at hch
    subst hch
    refine ⟨WTFString.empty, rfl, ?_⟩
    rw [Action.deserialize, ht]
    cases type <;> first | rfl | exact absurd rfl hcs

end QtWebKit.ContentExtensions
