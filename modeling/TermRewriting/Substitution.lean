import TermRewriting.Bindings
import TermRewriting.Options

/-! Substitution of bindings in a template. An argument that is a variable bound to a sequence is
replaced by the items of the sequence, and `OptionValue[name]` by the value bound for that option. -/

namespace TermRewriting.Term

/-- The value of `OptionValue[name]`, given its head and arguments. -/
def optionValue? (b : Bindings) (head : Term) : List Term → Option Term
  | [arg] => if head.isSymbol "OptionValue" then arg.optionName?.bind b.option? else none
  | _ => none

mutual

def substitute (b : Bindings) : Term → Term
  | .symbol name => (b.get? name).getD (.symbol name)
  | .app head args =>
    match optionValue? b head args with
    | some value => value
    | none => .app (substitute b head) (substituteArgs b args)
  | t => t

def substituteArgs (b : Bindings) : List Term → List Term
  | [] => []
  | .symbol name :: ts => ((b.get? name).elim [.symbol name] items) ++ substituteArgs b ts
  | t :: ts => substitute b t :: substituteArgs b ts

end

end TermRewriting.Term
