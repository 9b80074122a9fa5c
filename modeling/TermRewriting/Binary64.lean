/-! Binary floating-point numbers of 64 bits, kept as their bits. A payload of NaN and the sign of
zero survive; comparison follows the number. All readings below are exact integer arithmetic. -/

namespace TermRewriting

structure Binary64 where
  bits : UInt64
deriving DecidableEq, Inhabited

namespace Binary64

def exponent (x : Binary64) : Nat := x.bits.toNat / Nat.pow 2 52 % Nat.pow 2 11

def fraction (x : Binary64) : Nat := x.bits.toNat % Nat.pow 2 52

def isNegative (x : Binary64) : Bool := Nat.pow 2 63 ≤ x.bits.toNat

def isFinite (x : Binary64) : Bool := x.exponent < 2047

def isNaN (x : Binary64) : Bool := x.exponent == 2047 && x.fraction != 0

/-- Normal numbers have a leading one that the bits leave out. -/
def significand (x : Binary64) : Nat :=
  if x.exponent = 0 then x.fraction else Nat.pow 2 52 + x.fraction

def isZero (x : Binary64) : Bool := x.isFinite && x.significand == 0

/-- The gap to the next number up is `unit / denominator`, where one of the two is one. -/
def unit (x : Binary64) : Nat := Nat.pow 2 (x.exponent - 1075)

def denominator (x : Binary64) : Nat := Nat.pow 2 (1075 - max x.exponent 1)

/-- The magnitude of a finite number is `numerator / denominator`. -/
def numerator (x : Binary64) : Nat := x.significand * x.unit

def isWhole (x : Binary64) : Bool := x.isFinite && x.numerator % x.denominator == 0

/-- Equality of numbers: no NaN equals anything, and the two zeros are equal. -/
protected def beq (x y : Binary64) : Bool :=
  !x.isNaN && !y.isNaN && (x.bits == y.bits || (x.isZero && y.isZero))

instance : BEq Binary64 := ⟨Binary64.beq⟩

/-- How the number compares with zero; NaN does not. -/
def sign (x : Binary64) : Option Ordering :=
  if x.isNaN then none
  else if x.isZero then some .eq
  else some (if x.isNegative then .lt else .gt)

theorem beq_self (x : Binary64) : (x == x) = !x.isNaN := by
  change Binary64.beq x x = _
  cases h : x.isNaN <;> simp [Binary64.beq, h]

theorem beq_comm (x y : Binary64) : (x == y) = (y == x) := by
  change Binary64.beq x y = Binary64.beq y x
  simp only [Binary64.beq, Bool.beq_comm (a := x.bits)]
  cases x.isNaN <;> cases y.isNaN <;> simp [Bool.and_comm, Bool.beq_comm]

end Binary64

end TermRewriting
