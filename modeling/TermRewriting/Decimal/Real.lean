import TermRewriting.Binary64
import TermRewriting.Decimal.Basic
import TermRewriting.Decimal.Rounding

/-! Decimal text of 64-bit floating-point numbers, always without an exponent. -/

namespace TermRewriting.Binary64

def signText (x : Binary64) : String := if x.isNegative then "-" else ""

def nonFiniteText (x : Binary64) : String := if x.isNaN then "NaN" else x.signText ++ "inf"

/-- The interval that rounds to the number, in quarters of the gap above it. Below a power of two
the gap is half as wide, and the ends round to the number exactly if its significand is even. -/
def neighbourhood (x : Binary64) : Decimal.Neighbourhood where
  num := 4 * x.numerator
  den := 4 * x.denominator
  low := 4 * x.numerator - (if x.fraction = 0 ∧ 1 < x.exponent then 1 else 2) * x.unit
  high := 4 * x.numerator + 2 * x.unit
  closed := x.significand % 2 == 0

/-- Whole numbers show all their digits and one place; the others show the fewest digits that read
back as the same number. -/
def format (x : Binary64) : String :=
  if !x.isFinite then x.nonFiniteText
  else if x.isWhole then x.signText ++ Decimal.ofNat (x.numerator / x.denominator) ++ ".0"
  else
    let (n, places) := x.neighbourhood.shortest
    x.signText ++ Decimal.positional n places

def fixed (x : Binary64) (places : Nat) : String :=
  if !x.isFinite then x.nonFiniteText
  else x.signText ++
    Decimal.positional (Decimal.roundHalfEven (x.numerator * Decimal.scale places) x.denominator) places

end TermRewriting.Binary64
