import TermRewriting.Arithmetic.Order
import TermRewriting.Definitions

/-! A small evaluator: sums and products of integers, comparison of integers, lengths, and functions
of numbered slots. Sums and products are flat and their order does not count. -/

namespace TermRewriting.Arithmetic

def slot? (values : List Term) (head : Term) : List Term → Option Term
  | [.integer n] => if head.isSymbol "Slot" && 1 ≤ n then values[n.toNat - 1]? else none
  | _ => none

mutual

/-- Fills the slots of a function's body; the slots of functions inside it are their own. -/
def fill (values : List Term) : Term → Term
  | .app head args =>
    match slot? values head args with
    | some value => value
    | none =>
      if head.isSymbol "Function" then .app head args
      else .app (fill values head) (fillAll values args)
  | t => t

def fillAll (values : List Term) : List Term → List Term
  | [] => []
  | t :: ts => fill values t :: fillAll values ts

end

/-- An operation on integers with a unit, which stands for the application to no arguments. -/
structure Fold where
  name : String
  unit : Int
  op : Int → Int → Int

def sum : Fold := ⟨"Plus", 0, (· + ·)⟩

def product : Fold := ⟨"Times", 1, (· * ·)⟩

/-- Joins nested applications, combines the integers, and sorts what remains behind them. -/
def combine (f : Fold) (args : List Term) : Term :=
  let parts := args.flatMap fun t => if t.isCall f.name then t.args else [t]
  let total := (parts.filterMap Term.int?).foldl f.op f.unit
  let rest := sort (parts.filter (·.int?.isNone))
  match if total ≠ f.unit || rest.isEmpty then .integer total :: rest else rest with
  | [t] => t
  | ts => .call f.name ts

def compareIntegers (head : Term) (want : Ordering) : List Term → Term
  | [.integer m, .integer n] => .boolean (compare m n == want)
  | args => .app head args

def reduce (head : Term) (args : List Term) : Term :=
  match head.symbol?, args with
  | some "Plus", args => combine sum args
  | some "Times", args => combine product args
  | some "Greater", args => compareIntegers head .gt args
  | some "Less", args => compareIntegers head .lt args
  | some "Length", [t] => .integer t.args.length
  | _, args => .app head args

mutual

/-- The value of a term, where `apply` evaluates the filled bodies of functions. -/
def evaluateWith (apply : Term → Option Term) : Term → Option Term
  | .app head args =>
    (evaluateWith apply head).bind fun head =>
      if head.isCall "Function" then
        (evaluateAll apply args).bind fun args =>
          apply (fill args (head.args.head?.getD (.symbol "Null")))
      else if head.isSymbol "Function" || head.isSymbol "Hold" then some (.app head args)
      else (evaluateAll apply args).map fun args => reduce head (args.flatMap Term.items)
  | t => some t

def evaluateAll (apply : Term → Option Term) : List Term → Option (List Term)
  | [] => some []
  | t :: ts =>
    (evaluateWith apply t).bind fun t => (evaluateAll apply ts).map fun ts => t :: ts

end

/-- The value of a term, unless more than `calls` calls of functions are nested in each other. -/
def evaluate? : (calls : Nat) → Term → Option Term
  | 0, t => evaluateWith (fun _ => none) t
  | calls + 1, t => evaluateWith (evaluate? calls) t

/-- Deeper than any evaluation goes that ends. -/
def callLimit : Nat := Nat.pow 2 62

def evaluate (t : Term) : Term := (evaluate? callLimit t).getD t

/-- What is declared for sums and products from the start. -/
def definitions : Definitions where
  attributes := [(sum.name, ⟨true, true, true⟩), (product.name, ⟨true, true, true⟩)]
  defaults := [(⟨sum.name, none, none⟩, .integer sum.unit),
    (⟨product.name, none, none⟩, .integer product.unit)]

def evaluator (d : Definitions) : Evaluator := d.evaluatorWith evaluate

end TermRewriting.Arithmetic
