import Mathlib.Data.List.Induction
import Mathlib.Tactic.Ring

/-!
# Fixed-width byte representations of natural numbers

A big-endian word is read by a left fold and written from its last byte, a
little-endian word from its first byte. The writers keep only the requested
number of bytes, so reading back gives the remainder modulo the width.
-/

namespace QtWebKit.ByteOrder

open List

/-- The number denoted by a big-endian byte string. -/
def ofBigEndian (bytes : List UInt8) : Nat :=
  bytes.foldl (fun n b => n * 256 + b.toNat) 0

/-- The `k` low bytes of `n`, most significant byte first. -/
def toBigEndian : Nat → Nat → List UInt8
  | 0, _ => []
  | k + 1, n => toBigEndian k (n / 256) ++ [UInt8.ofNat n]

@[simp] theorem ofBigEndian_nil : ofBigEndian [] = 0 := rfl

theorem ofBigEndian_concat (bs : List UInt8) (b : UInt8) :
    ofBigEndian (bs ++ [b]) = ofBigEndian bs * 256 + b.toNat := by
  simp [ofBigEndian, foldl_append]

@[simp] theorem toBigEndian_length (k n : Nat) : (toBigEndian k n).length = k := by
  induction k generalizing n with
  | zero => rfl
  | succ k ih => simp [toBigEndian, ih]

/-- A `k`-byte word is below `256 ^ k`. -/
theorem ofBigEndian_lt (bs : List UInt8) : ofBigEndian bs < 256 ^ bs.length := by
  induction bs using reverseRecOn with
  | nil => simp
  | append_singleton bs b ih =>
    have hb := b.toNat_lt
    rw [ofBigEndian_concat, length_append, length_singleton, Nat.pow_succ]
    omega

/-- Reading back the low `k` bytes gives the remainder modulo `256 ^ k`. -/
theorem ofBigEndian_toBigEndian (k n : Nat) : ofBigEndian (toBigEndian k n) = n % 256 ^ k := by
  induction k generalizing n with
  | zero => simp [toBigEndian, Nat.mod_one]
  | succ k ih =>
    have hs : n % 256 ^ (k + 1) = n / 256 % 256 ^ k * 256 + n % 256 := by
      rw [Nat.pow_succ, Nat.mul_comm, Nat.mod_mul]
      ring
    rw [toBigEndian, ofBigEndian_concat, ih, hs, UInt8.toNat_ofNat']

/-- The number denoted by a little-endian byte string. -/
def ofLittleEndian : List UInt8 → Nat
  | [] => 0
  | b :: bytes => b.toNat + 256 * ofLittleEndian bytes

/-- The `k` low bytes of `n`, least significant byte first. -/
def toLittleEndian : Nat → Nat → List UInt8
  | 0, _ => []
  | k + 1, n => UInt8.ofNat n :: toLittleEndian k (n / 256)

@[simp] theorem toLittleEndian_length (k n : Nat) : (toLittleEndian k n).length = k := by
  induction k generalizing n with
  | zero => rfl
  | succ k ih => rw [toLittleEndian, length_cons, ih]

/-- Reading back the low `k` bytes gives the remainder modulo `256 ^ k`. -/
theorem ofLittleEndian_toLittleEndian (k n : Nat) :
    ofLittleEndian (toLittleEndian k n) = n % 256 ^ k := by
  induction k generalizing n with
  | zero => simp [toLittleEndian, ofLittleEndian, Nat.mod_one]
  | succ k ih =>
    rw [toLittleEndian, ofLittleEndian, ih, UInt8.toNat_ofNat', Nat.pow_succ' (n := k), Nat.mod_mul]

end QtWebKit.ByteOrder
