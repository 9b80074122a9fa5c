/-! Decimal digits of whole numbers, and of whole numbers read as hundredths, thousandths and so on. -/

namespace TermRewriting.Decimal

def ofNat (n : Nat) : String := String.ofList (Nat.toDigits 10 n)

def ofInt (n : Int) : String := (if n < 0 then "-" else "") ++ ofNat n.natAbs

def padded (width n : Nat) : String :=
  let digits := Nat.toDigits 10 n
  String.ofList (List.replicate (width - digits.length) '0' ++ digits)

/-- How many steps of the grid with that many decimal places make one. -/
def scale (places : Nat) : Nat := Nat.pow 10 places

/-- The number `n / scale places`, with exactly that many digits after the point. -/
def positional (n places : Nat) : String :=
  ofNat (n / scale places) ++ "." ++ padded places (n % scale places)

end TermRewriting.Decimal
