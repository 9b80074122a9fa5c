import TermRewriting.Term.Format

/-! What can be wrong with patterns, rules and level specifications, with the text of each message
and the key under which it is reported. -/

namespace TermRewriting

/-- Numbers of arguments that a pattern construct takes. -/
inductive Arity where
  | any
  | upToOne
  | one
  | oneOrTwo
  | two
deriving DecidableEq

namespace Arity

def admits : Arity → Nat → Bool
  | .any, _ => true
  | .upToOne, n => n ≤ 1
  | .one, n => n == 1
  | .oneOrTwo, n => 1 ≤ n && n ≤ 2
  | .two, n => n == 2

def text : Arity → String
  | .any => "any number of arguments are"
  | .upToOne => "0 or 1 arguments are"
  | .one => "1 argument is"
  | .oneOrTwo => "1 or 2 arguments are"
  | .two => "2 arguments are"

end Arity

inductive ReplacementError where
  | invalidPatternName (pattern : Term)
  | patternArity (head : String) (got : Nat) (expected : Arity)
  | repeatedRange (pattern : Term)
  | invalidRule (rule : Term)
  | ruleArity (head : String) (got : Nat)
  | ruleMix (rules : Term)
  | invalidDispatch (rules : Term)
  | invalidLevelSpec (spec : Term)

inductive ErrorKind where
  | patternCompile
  | invalidRule
  | invalidLevelSpec
deriving DecidableEq

namespace ReplacementError

def kind : ReplacementError → ErrorKind
  | .invalidPatternName _ | .patternArity .. | .repeatedRange _ => .patternCompile
  | .invalidRule _ | .ruleArity .. | .ruleMix _ | .invalidDispatch _ => .invalidRule
  | .invalidLevelSpec _ => .invalidLevelSpec

def message : ReplacementError → String
  | .invalidPatternName t => "First element in pattern " ++ t.format ++ " is not a valid pattern name."
  | .patternArity head got expected =>
    head ++ " called with " ++ Decimal.ofNat got ++ " arguments; " ++ expected.text ++ " expected."
  | .repeatedRange t =>
    "Range specification in integers (max or \x7bmin, max\x7d) expected at position 2 in "
      ++ t.format ++ "."
  | .invalidRule t => t.format ++ " is not a valid replacement rule."
  | .ruleArity head got =>
    head ++ " called with " ++ Decimal.ofNat got ++ " arguments; 2 arguments are expected."
  | .ruleMix t => "Elements of " ++ t.format ++ " are a mixture of lists and nonlists."
  | .invalidDispatch t => t.format ++ " is not a valid rule or list of rules."
  | .invalidLevelSpec t =>
    "Level specification " ++ t.format ++ " is not of the form n, \x7bn\x7d, or \x7bm, n\x7d."

/-- Symbol and tag of the message. Two of them are reported for the operation that was called. -/
def key (reporter : String) : ReplacementError → String × String
  | .invalidPatternName _ => ("Pattern", "patvar")
  | .patternArity .. => ("General", "argr")
  | .repeatedRange _ => ("Repeated", "range")
  | .invalidRule _ => (reporter, "reps")
  | .ruleArity .. => ("Rule", "argrx")
  | .ruleMix _ => (reporter, "rmix")
  | .invalidDispatch _ => ("Dispatch", "invrpl")
  | .invalidLevelSpec _ => ("General", "level")

end ReplacementError

end TermRewriting
