import TermRewriting.Text.Numeral

/-! Values of a TOML document. -/

namespace TermRewriting.Toml

/-- What a reader can tell about a value; of floats and arrays it keeps only that they are well
formed. -/
inductive Value where
  | boolean (b : Bool)
  | integer (n : Int)
  | float
  | string (text : String)
  | array
deriving DecidableEq

/-- Digits in base ten, with underscores between them but no idle zero in front. -/
def wholePart? (cs : List Char) : Option Nat :=
  match cs with
  | '0' :: _ :: _ => none
  | cs => (Text.withoutUnderscores? 10 cs).bind (Text.numeral? 10)

def digits? (base : Nat) (cs : List Char) : Option Nat :=
  (Text.withoutUnderscores? base cs).bind (Text.numeral? base)

/-- Integers have 64 bits, one of them for the sign. -/
def fitsInteger (n : Int) : Bool := -0x8000000000000000 ≤ n && n ≤ 0x7FFFFFFFFFFFFFFF

/-- Integers in base ten may have a sign; the other bases are marked. -/
def integer? : List Char → Option Int
  | '0' :: 'x' :: cs => (digits? 16 cs).map Int.ofNat
  | '0' :: 'o' :: cs => (digits? 8 cs).map Int.ofNat
  | '0' :: 'b' :: cs => (digits? 2 cs).map Int.ofNat
  | '+' :: cs => (wholePart? cs).map Int.ofNat
  | '-' :: cs => (wholePart? cs).map fun n => -Int.ofNat n
  | cs => (wholePart? cs).map Int.ofNat

def unsigned : List Char → List Char
  | '+' :: cs | '-' :: cs => cs
  | cs => cs

def isExponentMark (c : Char) : Bool := c == 'e' || c == 'E'

/-- A whole part, then a fraction, an exponent or both; or one of the named values. -/
def isFloat (cs : List Char) : Bool :=
  let cs := unsigned cs
  if cs == ['i', 'n', 'f'] || cs == ['n', 'a', 'n'] then true
  else
    let mantissa := cs.takeWhile (!isExponentMark ·)
    let exponent := cs.dropWhile (!isExponentMark ·)
    let whole := mantissa.takeWhile (· != '.')
    let fraction := mantissa.dropWhile (· != '.')
    (wholePart? whole).isSome && !(fraction.isEmpty && exponent.isEmpty)
      && (fraction.isEmpty || (digits? 10 fraction.tail).isSome)
      && (exponent.isEmpty || (digits? 10 (unsigned exponent.tail)).isSome)

def word? (cs : List Char) : Option Value :=
  if cs == ['t', 'r', 'u', 'e'] then some (.boolean true)
  else if cs == ['f', 'a', 'l', 's', 'e'] then some (.boolean false)
  else match integer? cs with
    | some n => if fitsInteger n then some (.integer n) else none
    | none => if isFloat cs then some .float else none

end TermRewriting.Toml
