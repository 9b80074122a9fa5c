/-! Attributes of a symbol, as far as matching under it as a head depends on them. -/

namespace TermRewriting

structure Attributes where
  /-- Nested applications of the symbol count as one long one. -/
  flat : Bool := false
  /-- The order of the arguments does not count. -/
  orderless : Bool := false
  /-- One argument alone stands for the application to it. -/
  oneIdentity : Bool := false
deriving DecidableEq, Inhabited

namespace Attributes

/-- All other names are attributes that matching has no use for. -/
def ofNames (names : List String) : Attributes where
  flat := names.contains "Flat"
  orderless := names.contains "Orderless"
  oneIdentity := names.contains "OneIdentity"

def bits (a : Attributes) : Nat :=
  (if a.flat then 1 else 0) + (if a.orderless then 2 else 0) + (if a.oneIdentity then 4 else 0)

end Attributes

end TermRewriting
