import TermRewriting.Evaluator

/-! Declarations for symbols: attributes, default values and options. On their own they make an
evaluator that leaves terms as they are. -/

namespace TermRewriting

/-- In each list the newest entry of a key counts. -/
structure Definitions where
  attributes : List (String × Attributes) := []
  defaults : List (DefaultKey × Term) := []
  options : List (String × Options) := []
  abort : Bool := false
deriving Inhabited

namespace Definitions

def setAttributes (d : Definitions) (symbol : String) (attributes : Attributes) : Definitions :=
  { d with attributes := (symbol, attributes) :: d.attributes }

def setDefault (d : Definitions) (key : DefaultKey) (value : Term) : Definitions :=
  { d with defaults := (key, value) :: d.defaults }

def setOptions (d : Definitions) (symbol : String) (options : Options) : Definitions :=
  { d with options := (symbol, options) :: d.options }

def setAbort (d : Definitions) (on : Bool) : Definitions := { d with abort := on }

def evaluatorWith (d : Definitions) (evaluate : Term → Term) : Evaluator where
  evaluate := evaluate
  attributes := fun symbol => (d.attributes.lookup symbol).getD {}
  defaultValue := fun key => d.defaults.lookup key
  declaredOptions := fun symbol => d.options.lookup symbol
  abortRequested := d.abort

def evaluator (d : Definitions) : Evaluator := d.evaluatorWith id

end Definitions

end TermRewriting
