import TermRewriting.Decimal.Real
import TermRewriting.Term.Basic

/-! Text of terms as messages show it: braces for lists, arrows for rules, a plus sign between the
terms of a sum, and `h[a, b]` for everything else. Strings stand between quotes as they are. -/

namespace TermRewriting.Term

def formatApp (head : Option String) (headText : String) (args : List String) : String :=
  match head, args with
  | some "List", _ => "\x7b" ++ ", ".intercalate args ++ "\x7d"
  | some "Rule", [lhs, rhs] => lhs ++ " -> " ++ rhs
  | some "RuleDelayed", [lhs, rhs] => lhs ++ " :> " ++ rhs
  | some "Plus", _ :: _ :: _ => " + ".intercalate args
  | _, _ => headText ++ "[" ++ ", ".intercalate args ++ "]"

mutual

def format : Term → String
  | .integer n => Decimal.ofInt n
  | .real x => x.format
  | .rational num den => Decimal.ofInt num ++ "/" ++ Decimal.ofInt den
  | .string text => "\"" ++ text ++ "\""
  | .symbol name => name
  | .boolean b => if b then "True" else "False"
  | .app head args => formatApp head.symbol? head.format (formatAll args)

def formatAll : List Term → List String
  | [] => []
  | t :: ts => t.format :: formatAll ts

end

end TermRewriting.Term
