import TermRewriting.Dispatch

/-! The rules argument of an operation. A term may hold one list of rules, or a list of such
arguments, each of which then has a result of its own. -/

namespace TermRewriting

abbrev Rewriting := ExceptT ReplacementError (StateM Journal)

inductive RuleTree where
  | rules (list : List Rule)
  | dispatch (d : Dispatch)
  | each (branches : List RuleTree)
  | invalid (e : ReplacementError)

/-- Rules as a term, or as a dispatch that keeps what its patterns have inherited. -/
inductive Rules where
  | term (t : Term)
  | dispatch (d : Dispatch)

namespace RuleTree

def ofExcept (f : α → RuleTree) : Except ReplacementError α → RuleTree
  | .ok a => f a
  | .error e => .invalid e

mutual

/-- Reads a list of rules, a single rule, or a list of lists of them. Lists and rules do not mix. -/
def ofTerm : Term → RuleTree
  | .app head args =>
    if head.isSymbol "Dispatch" then ofExcept .dispatch (Dispatch.compile (.app head args))
    else if head.isSymbol "List" then
      if args.any fun t => t.isCall "List" || t.isCall "Dispatch" then
        if args.all fun t => t.isCall "List" then .each (ofTerms args)
        else .invalid (.ruleMix (.app head args))
      else ofExcept .rules (Rule.listOfTerms 0 args)
    else ofExcept .rules (Rule.listOfTerms 0 [.app head args])
  | t => ofExcept .rules (Rule.listOfTerms 0 [t])

def ofTerms : List Term → List RuleTree
  | [] => []
  | t :: ts => ofTerm t :: ofTerms ts

end

mutual

/-- Applies each list of rules, from left to right up to the first invalid one. Patterns read from
a term have nothing inherited yet. -/
def run (apply : List Rule → StateM Journal Term) : RuleTree → Rewriting Term
  | .rules list => do
    modify Journal.forget
    apply list
  | .dispatch d => do
    modify fun j => j.forget.note (.compiledDispatch d.rules.length)
    apply d.rules
  | .each branches => return .list (← runAll apply branches)
  | .invalid e => throw e

def runAll (apply : List Rule → StateM Journal Term) : List RuleTree → Rewriting (List Term)
  | [] => return []
  | b :: bs => do
    let t ← run apply b
    return t :: (← runAll apply bs)

end

end RuleTree

namespace Rules

def run (apply : List Rule → StateM Journal Term) : Rules → Rewriting Term
  | .term t => (RuleTree.ofTerm t).run apply
  | .dispatch d => apply d.rules

end Rules

namespace Dispatch

def make (t : Term) : Rewriting Dispatch := do
  let d ← (Dispatch.compile t : Except ReplacementError Dispatch)
  modify fun j => j.forget.note (.compiledDispatch d.rules.length)
  return d

end Dispatch

end TermRewriting
