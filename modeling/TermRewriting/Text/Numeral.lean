/-! Numerals read digit by digit. -/

namespace TermRewriting.Text

def digitValue? (c : Char) : Option Nat :=
  if '0' ≤ c && c ≤ '9' then some (c.toNat - '0'.toNat)
  else if 'a' ≤ c && c ≤ 'f' then some (c.toNat - 'a'.toNat + 10)
  else if 'A' ≤ c && c ≤ 'F' then some (c.toNat - 'A'.toNat + 10)
  else none

def digitIn? (base : Nat) (c : Char) : Option Nat :=
  (digitValue? c).filter (· < base)

def readDigits (base : Nat) (value : Nat) : List Char → Option Nat
  | [] => some value
  | c :: cs => (digitIn? base c).bind fun d => readDigits base (value * base + d) cs

def numeral? (base : Nat) : List Char → Option Nat
  | [] => none
  | cs => readDigits base 0 cs

/-- Takes out underscores, each of which must stand between two digits. -/
def withoutUnderscores? (base : Nat) : List Char → Option (List Char)
  | [] => some []
  | [c] => if (digitIn? base c).isSome then some [c] else none
  | c :: '_' :: cs =>
    if (digitIn? base c).isSome && !cs.isEmpty then (withoutUnderscores? base cs).map (c :: ·)
    else none
  | c :: cs => if (digitIn? base c).isSome then (withoutUnderscores? base cs).map (c :: ·) else none

end TermRewriting.Text
