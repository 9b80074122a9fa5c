import TermRewriting.Attributes
import TermRewriting.Options

/-! What matching and rewriting ask of the system around them: to evaluate a term, and to look up
what is declared for a symbol. -/

namespace TermRewriting

/-- `Default[symbol]`, `Default[symbol, position]` or `Default[symbol, position, count]`. -/
structure DefaultKey where
  symbol : String
  position : Option Nat := none
  count : Option Nat := none
deriving DecidableEq

/-- Lookups that are left out find nothing declared. -/
structure Evaluator where
  evaluate : Term → Term
  isNumeric : Term → Bool := Term.isNumber
  attributes : String → Attributes := fun _ => {}
  defaultValue : DefaultKey → Option Term := fun _ => none
  declaredOptions : String → Option Options := fun _ => none
  /-- Repeated rewriting asks this before each pass. -/
  abortRequested : Bool := false

namespace Evaluator

/-- Nothing is declared and nothing evaluates. -/
def bare : Evaluator where
  evaluate := id

end Evaluator

end TermRewriting
