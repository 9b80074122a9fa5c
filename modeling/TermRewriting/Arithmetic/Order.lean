import TermRewriting.Decimal.Real
import TermRewriting.Term.Basic

/-! The order in which sums and products keep their terms: numbers, strings, symbols, truth values
and applications. Terms are compared by the text of a key. -/

namespace TermRewriting.Arithmetic

/-- At least twenty characters, a sign among them. -/
def integerKey (n : Int) : String :=
  if n < 0 then "-" ++ Decimal.padded 19 n.natAbs else Decimal.padded 20 n.natAbs

mutual

def sortKey : Term → String
  | .integer n => "0:" ++ integerKey n
  | .real x => "1:" ++ x.fixed 16
  | .rational num den => "1r:" ++ Decimal.ofInt num ++ "/" ++ Decimal.ofInt den
  | .string text => "2:" ++ text
  | .symbol name => "3:" ++ name
  | .boolean b => "4:" ++ (if b then "1" else "0")
  | .app head args => "5:" ++ sortKey head ++ "[" ++ ",".intercalate (sortKeys args) ++ "]"

def sortKeys : List Term → List String
  | [] => []
  | t :: ts => sortKey t :: sortKeys ts

end

/-- Terms with equal keys stay in the order in which they came. -/
def sort (ts : List Term) : List Term :=
  ((ts.map fun t => (sortKey t, t)).mergeSort fun a b => !(b.1 < a.1)).map Prod.snd

end TermRewriting.Arithmetic
