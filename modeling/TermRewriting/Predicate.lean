import TermRewriting.Evaluator

/-! Predicates on terms that are decided from the term itself, without evaluating anything. A
pattern test with one of their names uses them. -/

namespace TermRewriting

inductive Predicate where
  | atom
  | string
  | number
  | numeric
  | integer
  | even
  | odd
  | realValuedNumber
  | positive
  | negative
  | nonPositive
  | nonNegative
  | negativePower
  | notNegativePower
deriving DecidableEq

namespace Predicate

def name : Predicate → String
  | .atom => "AtomQ"
  | .string => "StringQ"
  | .number => "NumberQ"
  | .numeric => "NumericQ"
  | .integer => "IntegerQ"
  | .even => "EvenQ"
  | .odd => "OddQ"
  | .realValuedNumber => "RealValuedNumberQ"
  | .positive => "Positive"
  | .negative => "Negative"
  | .nonPositive => "NonPositive"
  | .nonNegative => "NonNegative"
  | .negativePower => "NegativePowerQ"
  | .notNegativePower => "NotNegativePowerQ"

def all : List Predicate :=
  [.atom, .string, .number, .numeric, .integer, .even, .odd, .realValuedNumber, .positive, .negative,
    .nonPositive, .nonNegative, .negativePower, .notNegativePower]

def ofTerm? (test : Term) : Option Predicate :=
  test.symbol?.bind fun name => all.find? fun p => p.name == name

def isNegativePower (t : Term) : Bool :=
  t.isCall "Power" && match t.args with
    | [_, exponent] => exponent.sign == some .lt
    | _ => false

def check (ev : Evaluator) (t : Term) : Predicate → Bool
  | .atom => t.isAtom
  | .string => t.headName? == some "String" && t.isAtom
  | .number => t.isNumber
  | .numeric => ev.isNumeric t
  | .integer => t.int?.isSome
  | .even => t.int?.any (· % 2 == 0)
  | .odd => t.int?.any (· % 2 != 0)
  | .realValuedNumber => t.isNumber && match t with
    | .real x => !x.isNaN
    | _ => true
  | .positive => t.sign == some .gt
  | .negative => t.sign == some .lt
  | .nonPositive => t.sign == some .lt || t.sign == some .eq
  | .nonNegative => t.sign == some .gt || t.sign == some .eq
  | .negativePower => isNegativePower t
  | .notNegativePower => !isNegativePower t

end Predicate

end TermRewriting
