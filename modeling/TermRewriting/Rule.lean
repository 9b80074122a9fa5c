import TermRewriting.Pattern.Compile
import TermRewriting.Pattern.Visit

/-! Replacement rules: a pattern and a template for what it is replaced by. -/

namespace TermRewriting

structure Rule where
  lhs : Pattern
  /-- The term that the pattern was read from. -/
  source : Term
  rhs : Term
  /-- Whether the right-hand side is evaluated once the bindings are in place. -/
  delayed : Bool

namespace Rule

/-- The rule at that position among others; the position sets its pattern apart from theirs. -/
def make (cell : Position) (lhs rhs : Term) (delayed : Bool) : Except ReplacementError Rule :=
  (Pattern.compileAt cell lhs).map fun pattern => ⟨pattern, lhs, rhs, delayed⟩

def isRule (t : Term) : Bool := t.isCall "Rule" || t.isCall "RuleDelayed"

/-- Reads `lhs -> rhs` or `lhs :> rhs`. -/
def ofTerm (cell : Position) (t : Term) : Except ReplacementError Rule :=
  if isRule t then
    match t.args with
    | [lhs, rhs] => make cell lhs rhs (t.isCall "RuleDelayed")
    | args => .error (.ruleArity t.head.format args.length)
  else .error (.invalidRule t)

def listOfTerms (number : Nat) : List Term → Except ReplacementError (List Rule)
  | [] => return []
  | t :: ts => do
    let rule ← ofTerm [number] t
    return rule :: (← listOfTerms (number + 1) ts)

def toTerm (r : Rule) : Term := .call (if r.delayed then "RuleDelayed" else "Rule") [r.source, r.rhs]

/-- Puts the arguments that were left over around the replacement of the others. -/
def surround (t : Term) (left : Leftover) (replaced : Term) : Term :=
  .app t.head (left.before ++ replaced.items ++ left.after)

/-- What a match of the term turns it into; nothing if it left all arguments over. -/
def result? (ev : Evaluator) (r : Rule) (t : Term) (m : Match) : Option Term :=
  if !m.left.isEmpty && m.left.size == t.args.length then none
  else
    let filled := r.rhs.substitute m.bindings
    let replaced := if r.delayed then ev.evaluate filled else filled
    some (if m.left.isEmpty then replaced else surround t m.left replaced)

/-- All that the rule turns the term into, in the order of the matches. Unless the term must match
as a whole, a match may leave arguments of a flat application over. -/
def results (ev : Evaluator) (r : Rule) (t : Term) (whole : Bool) : Search Term :=
  (r.lhs.search ev { whole } t .empty).bind fun m => .ofOption (r.result? ev t m)

def visitResults (ev : Evaluator) (r : Rule) (t : Term) (whole : Bool) (k : Term → Visit κ) :
    Visit κ :=
  r.lhs.visit ev { whole } t .empty fun b rest =>
    match r.result? ev t ⟨b, rest.leftover t⟩ with
    | some result => k result
    | none => .proceed

def apply (ev : Evaluator) (r : Rule) (t : Term) (whole : Bool) : StateM Journal (Option Term) :=
  fun j =>
    let outcome := Visit.outcome (r.visitResults ev t whole) (.upTo 1 .found) j
    (outcome.seen[0]?, outcome.journal)

def applyList (ev : Evaluator) (r : Rule) (t : Term) (limit : Option Nat) :
    StateM Journal (List Term) := fun j =>
  if limit = some 0 then ([], j) else
  let outcome := Visit.outcome (r.visitResults ev t true) (limit.elim .all (.upTo · .limit)) j
  (outcome.seen.toList, outcome.journal)

end Rule

end TermRewriting
