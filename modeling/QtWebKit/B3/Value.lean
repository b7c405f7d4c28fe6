import Mathlib.Data.BitVec

/-!
# Integer values of B3

A value of the compiler's intermediate language is computed from other values. Integers
have 32 or 64 bits; the operations are those of two's complement.

## Implementation notes

Values are trees: a value that is used twice appears twice, and both copies are equal
because the operations have no effects. A value of any other opcode is an argument. The
results of `Div` and `Mod` that the language leaves open are part of the valuation.
-/

namespace QtWebKit.B3

inductive Ty where
  | int32
  | int64
  deriving DecidableEq, Repr

def Ty.bits : Ty → Nat
  | int32 => 32
  | int64 => 64

inductive BinaryOpcode where
  | add
  | sub
  | mul
  | div
  | mod
  | chillDiv
  | chillMod
  | bitAnd
  | bitOr
  | bitXor
  deriving DecidableEq, Repr

inductive ShiftOpcode where
  | shl
  | sShr
  | zShr
  deriving DecidableEq, Repr

inductive Value : Ty → Type where
  | argument {t : Ty} (index : Nat) : Value t
  | const {t : Ty} (value : BitVec t.bits) : Value t
  | binary {t : Ty} (opcode : BinaryOpcode) (left right : Value t) : Value t
  | shift {t : Ty} (opcode : ShiftOpcode) (left : Value t) (right : Value .int32) : Value t
  | sExt32 (child : Value .int32) : Value .int64
  | trunc (child : Value .int64) : Value .int32

/-! ### Meaning -/

/-- The values of arguments, and of divisions that can have any value. -/
structure Valuation where
  argument : (t : Ty) → Nat → BitVec t.bits
  openDiv : (t : Ty) → BitVec t.bits → BitVec t.bits → BitVec t.bits
  openMod : (t : Ty) → BitVec t.bits → BitVec t.bits → BitVec t.bits

/-- `chillDiv`. -/
def chillDiv {w : Nat} (numerator denominator : BitVec w) : BitVec w :=
  if denominator = 0 then 0
  else if denominator = -1 ∧ numerator = BitVec.intMin w then BitVec.intMin w
  else numerator.sdiv denominator

/-- `chillMod`. -/
def chillMod {w : Nat} (numerator denominator : BitVec w) : BitVec w :=
  if denominator = 0 then 0
  else if denominator = -1 ∧ numerator = BitVec.intMin w then 0
  else numerator.srem denominator

/-- All bets are off for `-2^31 / -1` and `x / 0`. -/
def isOpen {w : Nat} (numerator denominator : BitVec w) : Bool :=
  denominator = 0 || (denominator = -1 && numerator = BitVec.intMin w)

def BinaryOpcode.eval {t : Ty} (valuation : Valuation) (opcode : BinaryOpcode)
    (x y : BitVec t.bits) :
    BitVec t.bits :=
  match opcode with
  | add => x + y
  | sub => x - y
  | mul => x * y
  | div => if isOpen x y then valuation.openDiv t x y else x.sdiv y
  | mod => if isOpen x y then valuation.openMod t x y else x.srem y
  | chillDiv => B3.chillDiv x y
  | chillMod => B3.chillMod x y
  | bitAnd => x &&& y
  | bitOr => x ||| y
  | bitXor => x ^^^ y

/-- Shift amounts are taken modulo the number of bits. -/
def ShiftOpcode.eval {w : Nat} (opcode : ShiftOpcode) (x : BitVec w) (amount : BitVec 32) :
    BitVec w :=
  match opcode with
  | shl => x <<< (amount.toNat % w)
  | sShr => x.sshiftRight (amount.toNat % w)
  | zShr => x >>> (amount.toNat % w)

def Value.eval (valuation : Valuation) : {t : Ty} → Value t → BitVec t.bits
  | t, argument index => valuation.argument t index
  | _, const value => value
  | _, binary opcode left right =>
    opcode.eval valuation (left.eval valuation) (right.eval valuation)
  | _, shift opcode left right => opcode.eval (left.eval valuation) (right.eval valuation)
  | _, sExt32 child => (child.eval valuation).signExtend 64
  | _, trunc child => (child.eval valuation).setWidth 32

end QtWebKit.B3
