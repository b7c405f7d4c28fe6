import Mathlib.Data.Nat.Digits.Lemmas

/-!
# The values a JSON text is read into

Primitive values, arrays and the objects of the engine. An object stores a
property under a number when its name is the canonical text of an array index,
and under its name otherwise.

## Implementation notes

A number is the decimal it is written as. Both stores of an object are
association lists in the order of insertion.
-/

namespace QtWebKit.JSON

open List

def isASCIIDigit (c : UInt16) : Bool := c ≥ 0x30 && c ≤ 0x39

/-- The decimal `(-1)^negative * coefficient * 10^exponent`, with a sign for zero. -/
structure Decimal where
  negative : Bool
  coefficient : Nat
  exponent : Int
  deriving DecidableEq, Repr

inductive JSValue
  | null
  | boolean (value : Bool)
  | number (value : Decimal)
  | string (characters : List UInt16)
  | array (elements : List JSValue)
  | object (indexed : List (Nat × JSValue)) (named : List (List UInt16 × JSValue))
  deriving Repr

/-! ### Array indexes -/

/-- The digits after the first one; nothing once the value leaves 32 bits. -/
def parseIndexLoop (value : UInt32) : List UInt16 → Option UInt32
  | [] => some value
  | c :: rest =>
    if value > 0xFFFFFFFF / 10 then none
    else
      let value := value * 10
      let newValue := c.toUInt32 - 0x30
      if newValue > 9 then none
      else if newValue + value < value then none
      else parseIndexLoop (newValue + value) rest

def isIndex (index : UInt32) : Bool := index != 0xFFFFFFFF

/-- The array index a property name is the canonical text of. -/
def parseIndex : List UInt16 → Option UInt32
  | [] => none
  | c :: rest =>
    let value := c.toUInt32 - 0x30
    if value > 9 then none
    else if value = 0 ∧ rest ≠ [] then none
    else (parseIndexLoop value rest).filter isIndex

/-! ### Properties -/

section

variable {κ : Type} [DecidableEq κ]

/-- Writes a property: in its place if it is there, at the end if it is new. -/
def putProperty (key : κ) (value : JSValue) : List (κ × JSValue) → List (κ × JSValue)
  | [] => [(key, value)]
  | (name, old) :: rest =>
    if name = key then (key, value) :: rest else (name, old) :: putProperty key value rest

def getProperty (key : κ) : List (κ × JSValue) → Option JSValue
  | [] => none
  | (name, value) :: rest => if name = key then some value else getProperty key rest

theorem getProperty_putProperty (key : κ) (val : JSValue) (entries : List (κ × JSValue))
    (name : κ) :
    getProperty name (putProperty key val entries) =
      if name = key then some val else getProperty name entries := by
  induction entries with
  | nil => simp [putProperty, getProperty, eq_comm]
  | cons ent rest ih =>
    obtain ⟨first, old⟩ := ent
    by_cases hf : first = key
    · by_cases h : key = name <;> simp [putProperty, getProperty, hf, h, eq_comm]
    · by_cases h : first = name
      · subst h
        simp [putProperty, getProperty, hf]
      · simp [putProperty, getProperty, hf, h, ih]

end

/-- Writes a property of an object, under its number if its name is an array index. -/
def JSValue.put (object : JSValue) (key : List UInt16) (value : JSValue) : JSValue :=
  match object with
  | .object indexed named =>
    match parseIndex key with
    | some index => .object (putProperty index.toNat value indexed) named
    | none => .object indexed (putProperty key value named)
  | other => other

def JSValue.get (object : JSValue) (key : List UInt16) : Option JSValue :=
  match object with
  | .object indexed named =>
    match parseIndex key with
    | some index => getProperty index.toNat indexed
    | none => getProperty key named
  | _ => none

/-! ### Array indexes have one text -/

/-- The number a run of decimal digits is written for. -/
def digitsValue (digits : List UInt16) : Nat :=
  digits.foldl (fun value digit => value * 10 + (digit.toNat - 0x30)) 0

def IsDigits (digits : List UInt16) : Prop := ∀ c ∈ digits, isASCIIDigit c = true

theorem isASCIIDigit_iff (c : UInt16) :
    isASCIIDigit c = true ↔ 0x30 ≤ c.toNat ∧ c.toNat ≤ 0x39 := by
  simp [isASCIIDigit, UInt16.le_iff_toNat_le]

theorem digit_toNat {c : UInt16} (h : ¬ c.toUInt32 - 0x30 > 9) :
    isASCIIDigit c = true ∧ (c.toUInt32 - 0x30).toNat = c.toNat - 0x30 := by
  have hc := c.toNat_lt
  rw [isASCIIDigit_iff]
  simp only [gt_iff_lt, UInt32.lt_iff_toNat_lt, UInt32.toNat_sub, UInt16.toNat_toUInt32,
    UInt32.reduceToNat] at h ⊢
  omega

theorem digitsValue_append (digs : List UInt16) (digit : UInt16) :
    digitsValue (digs ++ [digit]) = digitsValue digs * 10 + (digit.toNat - 0x30) := by
  simp [digitsValue]

/-- What the digits after the first ones are read into. -/
theorem parseIndexLoop_eq_some {val res : UInt32} (digs : List UInt16)
    {rest} (hv : val.toNat = digitsValue digs)
    (hdg : IsDigits digs) (h : parseIndexLoop val rest = some res) :
    res.toNat = digitsValue (digs ++ rest) ∧ IsDigits (digs ++ rest) := by
  induction rest generalizing val digs with
  | nil =>
    cases h
    simp [hv, hdg]
  | cons c rest ih =>
    simp only [parseIndexLoop] at h
    split_ifs at h with hl hdt ho
    obtain ⟨hc, hw⟩ := digit_toNat hdt
    have hlt := c.toNat_lt
    have hsm : (c.toUInt32 - 0x30 + val * 10).toNat = digitsValue (digs ++ [c]) := by
      rw [digitsValue_append, ← hv]
      simp only [gt_iff_lt, UInt32.lt_iff_toNat_lt, UInt32.toNat_add, UInt32.toNat_mul, hw,
        UInt32.reduceToNat, UInt32.reduceDiv] at hl ho ⊢
      rw [isASCIIDigit_iff] at hc
      omega
    have hap : digs ++ c :: rest = (digs ++ [c]) ++ rest := by simp
    rw [hap]
    apply ih (digs ++ [c]) hsm _ h
    intro d hd
    rcases mem_append.mp hd with hd | hd
    · exact hdg d hd
    · rw [mem_singleton.mp hd]
      exact hc

/-- The digits of a number, least significant first. -/
theorem digitsValue_eq_ofDigits (digs : List UInt16) :
    digitsValue digs = Nat.ofDigits 10 (digs.map fun c => c.toNat - 0x30).reverse := by
  induction digs using reverseRecOn with
  | nil => rfl
  | append_singleton digs digit ih =>
    rw [digitsValue_append, ih, map_append, reverse_append, map_singleton,
      reverse_singleton, singleton_append, Nat.ofDigits_cons]
    ring

/-- Runs of digits with the same values are the same. -/
theorem digits_eq_of_map_eq {a b : List UInt16} (ha : IsDigits a) (hb : IsDigits b)
    (h : a.map (fun c => c.toNat - 0x30) = b.map fun c => c.toNat - 0x30) : a = b := by
  apply ext_getElem
  · simpa using congrArg length h
  · intro i hia hib
    have hv : a[i].toNat - 0x30 = b[i].toNat - 0x30 := by
      have := congrArg (fun values => values[i]?) h
      simpa [hia, hib] using this
    have hda := (isASCIIDigit_iff _).mp (ha a[i] (getElem_mem hia))
    have hdb := (isASCIIDigit_iff _).mp (hb b[i] (getElem_mem hib))
    apply UInt16.toNat_inj.mp
    omega

/-- Digits without a leading zero are the digits of the number they are written for. -/
theorem digits_digitsValue {c : UInt16} {rest} (h : IsDigits (c :: rest)) (hc : c ≠ 0x30) :
    Nat.digits 10 (digitsValue (c :: rest)) =
      ((c :: rest).map fun c => c.toNat - 0x30).reverse := by
  rw [digitsValue_eq_ofDigits]
  apply Nat.digits_ofDigits 10 (by decide)
  · intro d hd
    obtain ⟨x, hx, rfl⟩ := mem_map.mp (mem_reverse.mp hd)
    have := (isASCIIDigit_iff x).mp (h x hx)
    omega
  · intro hne
    have hdt := (isASCIIDigit_iff c).mp (h c (by simp))
    have hz : c.toNat ≠ 0x30 := fun h => hc (UInt16.toNat_inj.mp h)
    simp only [map_cons, reverse_cons, getLast_append_singleton]
    omega

theorem digitsValue_ne_zero {c rest} (h : IsDigits (c :: rest))
    (hc : c ≠ 0x30) : digitsValue (c :: rest) ≠ 0 := by
  intro hz
  have hdg := digits_digitsValue h hc
  rw [hz, Nat.digits_zero] at hdg
  simp at hdg

/-- A name that is an array index is the text of that index without leading zeros. -/
theorem parseIndex_eq_some {key} {idx : UInt32} (h : parseIndex key = some idx) :
    ∃ first rest, key = first :: rest ∧ IsDigits key ∧ (first = 0x30 → rest = []) ∧
      idx.toNat = digitsValue key := by
  cases key with
  | nil => cases h
  | cons first rest =>
    simp only [parseIndex] at h
    split_ifs at h with hdt hz
    obtain ⟨hf, hv⟩ := digit_toNat hdt
    have hlp := (Option.filter_eq_some_iff.mp h).1
    have hon : IsDigits [first] := by
      intro c hc
      rw [mem_singleton.mp hc]
      exact hf
    obtain ⟨hi, hdg⟩ := parseIndexLoop_eq_some [first]
      (by rw [hv]; simp [digitsValue]) hon hlp
    refine ⟨first, rest, rfl, hdg, ?_, hi⟩
    rintro rfl
    by_contra hr
    exact hz ⟨rfl, hr⟩

theorem parseIndex_injective {a b idx}
    (ha : parseIndex a = some idx) (hb : parseIndex b = some idx) : a = b := by
  obtain ⟨first, ra, rfl, hda, hza, hva⟩ := parseIndex_eq_some ha
  obtain ⟨snd, rb, rfl, hdb, hzb, hvb⟩ := parseIndex_eq_some hb
  have hv := hva.symm.trans hvb
  have hz : digitsValue [0x30] = 0 := rfl
  by_cases hf : first = 0x30
  · have hra := hza hf
    subst hf hra
    by_cases hs : snd = 0x30
    · rw [hs, hzb hs]
    · exact absurd (hv.symm.trans hz) (digitsValue_ne_zero hdb hs)
  · by_cases hs : snd = 0x30
    · have hrb := hzb hs
      subst hs hrb
      exact absurd (hv.trans hz) (digitsValue_ne_zero hda hf)
    · have hm := (digits_digitsValue hda hf).symm.trans
        ((congrArg (Nat.digits 10) hv).trans (digits_digitsValue hdb hs))
      exact digits_eq_of_map_eq hda hdb (reverse_injective hm)

/-- A property reads as the value last written for it. -/
theorem get_put (indexed : List (Nat × JSValue)) (named : List (List UInt16 × JSValue))
    (key : List UInt16) (val : JSValue) (name : List UInt16) :
    ((JSValue.object indexed named).put key val).get name =
      if name = key then some val else (JSValue.object indexed named).get name := by
  cases hk : parseIndex key with
  | none =>
    cases hnm : parseIndex name with
    | none => simp only [JSValue.put, JSValue.get, hk, hnm, getProperty_putProperty]
    | some idx =>
      have hne : name ≠ key := by
        rintro rfl
        rw [hk] at hnm
        cases hnm
      simp only [JSValue.put, JSValue.get, hk, hnm, if_neg hne]
  | some idx =>
    cases hnm : parseIndex name with
    | none =>
      have hne : name ≠ key := by
        rintro rfl
        rw [hk] at hnm
        cases hnm
      simp only [JSValue.put, JSValue.get, hk, hnm, if_neg hne]
    | some oth =>
      have hif : oth.toNat = idx.toNat ↔ name = key := by
        constructor
        · intro h
          have hi : oth = idx := UInt32.toNat_inj.mp h
          exact parseIndex_injective (hi ▸ hnm) hk
        · rintro rfl
          rw [hk] at hnm
          rw [Option.some.inj hnm]
      simp only [JSValue.put, JSValue.get, hk, hnm, getProperty_putProperty, hif]

/-- Writing to an object leaves an object. -/
theorem put_object (indexed : List (Nat × JSValue)) (named : List (List UInt16 × JSValue))
    (key : List UInt16) (val : JSValue) :
    ∃ indexed' named', (JSValue.object indexed named).put key val = .object indexed' named' := by
  cases h : parseIndex key with
  | none => exact ⟨indexed, putProperty key val named, by simp only [JSValue.put, h]⟩
  | some idx =>
    exact ⟨putProperty idx.toNat val indexed, named, by simp only [JSValue.put, h]⟩

end QtWebKit.JSON
