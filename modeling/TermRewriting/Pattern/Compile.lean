import TermRewriting.Error
import TermRewriting.Pattern.Basic

/-! Reading a term as a pattern. Some heads are pattern constructs; every other application is a
compound pattern, and every atom stands for itself. -/

namespace TermRewriting

inductive Construct where
  | wildcard (span : Span)
  | named
  | optional
  | alternatives
  | except
  | verbatim
  | hold
  | test
  | condition
  /-- Repetition, at least once unless none are allowed. -/
  | repeated (orNone : Bool)
  | options
deriving DecidableEq

namespace Construct

def ofName? : String → Option Construct
  | "Blank" => some (.wildcard .one)
  | "BlankSequence" => some (.wildcard .many)
  | "BlankNullSequence" => some (.wildcard .any)
  | "Pattern" => some .named
  | "Optional" => some .optional
  | "Alternatives" => some .alternatives
  | "Except" => some .except
  | "Verbatim" => some .verbatim
  | "HoldPattern" => some .hold
  | "PatternTest" => some .test
  | "Condition" => some .condition
  | "Repeated" => some (.repeated false)
  | "RepeatedNull" => some (.repeated true)
  | "OptionsPattern" => some .options
  | _ => none

def name : Construct → String
  | .wildcard .one => "Blank"
  | .wildcard .many => "BlankSequence"
  | .wildcard .any => "BlankNullSequence"
  | .named => "Pattern"
  | .optional => "Optional"
  | .alternatives => "Alternatives"
  | .except => "Except"
  | .verbatim => "Verbatim"
  | .hold => "HoldPattern"
  | .test => "PatternTest"
  | .condition => "Condition"
  | .repeated false => "Repeated"
  | .repeated true => "RepeatedNull"
  | .options => "OptionsPattern"

def arity : Construct → Arity
  | .alternatives => .any
  | .wildcard _ | .options => .upToOne
  | .hold => .one
  | .optional | .except | .verbatim | .repeated _ => .oneOrTwo
  | .named | .test | .condition => .two

def ofHead? (head : Term) : Option Construct := head.symbol?.bind ofName?

theorem ofName?_name (c : Construct) : ofName? c.name = some c := by
  match c with
  | .wildcard .one | .wildcard .many | .wildcard .any | .repeated false | .repeated true
  | .named | .optional | .alternatives | .except | .verbatim | .hold | .test | .condition
  | .options => rfl

end Construct

namespace Pattern

def count? (t : Term) : Option Nat :=
  t.int?.bind fun n => if 0 ≤ n then some n.toNat else none

/-- The numbers of repetitions that `n`, `{n}`, `{min, max}` or `{min, Infinity}` asks for. A single
number `n` leaves the least number to the construct. -/
def range? (least : Nat) (t : Term) : Option Width :=
  if t.isCall "List" then
    match t.args with
    | [n] => (count? n).map fun n => ⟨n, some n⟩
    | [lo, hi] => (count? lo).bind fun lo =>
      if hi.isSymbol "Infinity" then some ⟨lo, none⟩
      else (count? hi).bind fun hi => if lo ≤ hi then some ⟨lo, some hi⟩ else none
    | _ => none
  else (count? t).map fun n => ⟨least, some n⟩

def leastRepetitions (orNone : Bool) : Nat := if orNone then 0 else 1

mutual

/-- The pattern that a term stands for, at that position of a larger one. -/
def compileAt (cell : Position) : Term → Except ReplacementError Pattern
  | .app head args =>
    match Construct.ofHead? head, args with
    | none, args => do
      let elements ← compileArgs cell 1 args
      return .compound (← compileAt (0 :: cell) head) elements
    | some (.wildcard span), [] => return .wildcard span none
    | some (.wildcard span), [h] => return .wildcard span (some h)
    | some .named, [name, inner] =>
      match name.symbol? with
      | some name => return .named name (← compileAt (2 :: cell) inner)
      | none => throw (.invalidPatternName (.app head [name, inner]))
    | some .optional, [inner] => return .optional (← compileAt (1 :: cell) inner) none
    | some .optional, [inner, value] => return .optional (← compileAt (1 :: cell) inner) (some value)
    | some .alternatives, args => return .alternatives (← compileArgs cell 1 args)
    | some .except, [excluded] =>
      return .except (← compileAt (1 :: cell) excluded) (.wildcard .one none)
    | some .except, [excluded, fallback] => do
      let fallback ← compileAt (2 :: cell) fallback
      return .except (← compileAt (1 :: cell) excluded) fallback
    | some .verbatim, [t] | some .verbatim, [t, _] => return .verbatim t
    | some .hold, [inner] => return .hold (← compileAt (1 :: cell) inner)
    | some .test, [inner, predicate] => return .test (← compileAt (1 :: cell) inner) predicate
    | some .condition, [inner, guard] => return .condition (← compileAt (1 :: cell) inner) guard
    | some (.repeated orNone), [inner] =>
      return .repeated (← compileAt (1 :: cell) inner) (leastRepetitions orNone) none
    | some (.repeated orNone), [inner, range] =>
      match range? (leastRepetitions orNone) range with
      | some w => return .repeated (← compileAt (1 :: cell) inner) w.least w.most
      | none => throw (.repeatedRange (.app head [inner, range]))
    | some .options, [] => return .options cell none
    | some .options, [defaults] => return .options cell (some defaults)
    | some c, args => throw (.patternArity c.name args.length c.arity)
  | t => return .literal t

/-- The patterns of arguments, the first of which has that number. -/
def compileArgs (cell : Position) (number : Nat) : List Term → Except ReplacementError (List Pattern)
  | [] => return []
  | t :: ts => do
    let p ← compileAt (number :: cell) t
    return p :: (← compileArgs cell (number + 1) ts)

end

def compile (t : Term) : Except ReplacementError Pattern := compileAt [] t

end Pattern

end TermRewriting
