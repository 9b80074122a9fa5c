import TermRewriting.Level
import TermRewriting.Rule

/-! Applying rules throughout a term. The answer `none` means that no rule applied anywhere. -/

namespace TermRewriting

namespace Term

/-- What takes the place of an argument: the items of its replacement, or the argument. -/
def inPlace (t : Term) (replaced : Option Term) : List Term := replaced.elim [t] items

def changed? (head : Term) (args : List Term) (newHead : Option Term) (newArgs : Option (List Term)) :
    Option Term :=
  if newHead.isNone && newArgs.isNone then none
  else some (.app (newHead.getD head) (newArgs.getD args))

end Term

/-- The rules that a traversal applies at each of its nodes, for one operation. -/
structure Replacer where
  evaluator : Evaluator
  operation : Operation
  rules : List Rule

namespace Replacer

def firstResult (ev : Evaluator) (operation : Operation) (t : Term) :
    List Rule → StateM Journal (Option Term)
  | [] => return none
  | r :: rs => do
    match ← r.apply ev t false with
    | some result =>
      modify fun j => j.note (.applied operation r.toTerm result)
      return some result
    | none => firstResult ev operation t rs

def applyAt (w : Replacer) (t : Term) : StateM Journal (Option Term) :=
  firstResult w.evaluator w.operation t w.rules

mutual

/-- Tries the term itself, and only if no rule applies to it its head and its arguments. -/
def outermost (w : Replacer) : Term → StateM Journal (Option Term)
  | .app head args => do
    match ← w.applyAt (.app head args) with
    | some t => return some t
    | none =>
      let newHead ← outermost w head
      return Term.changed? head args newHead (← outermostArgs w args)
  | t => w.applyAt t

def outermostArgs (w : Replacer) : List Term → StateM Journal (Option (List Term))
  | [] => return none
  | t :: ts => do
    let first ← outermost w t
    let rest ← outermostArgs w ts
    return if first.isNone && rest.isNone then none
      else some (t.inPlace first ++ rest.getD ts)

end

mutual

/-- Tries the subterms at the levels that are meant, the deeper ones first. -/
def atLevels (w : Replacer) (spec : LevelSpec) (heads : Bool) (level : Nat) :
    Term → StateM Journal (Option Term)
  | .app head args => do
    let below ← if spec.goesBelow level then
        let newHead ← if heads then atLevels w spec heads (level + 1) head else pure none
        pure (Term.changed? head args newHead (← atLevelsArgs w spec heads (level + 1) args))
      else pure none
    let current := below.getD (.app head args)
    if spec.admits level current then
      return (← w.applyAt current).or below
    else return below
  | t => if spec.admits level t then w.applyAt t else pure none

def atLevelsArgs (w : Replacer) (spec : LevelSpec) (heads : Bool) (level : Nat) :
    List Term → StateM Journal (Option (List Term))
  | [] => return none
  | t :: ts => do
    let first ← atLevels w spec heads level t
    let rest ← atLevelsArgs w spec heads level ts
    return if first.isNone && rest.isNone then none
      else some (t.inPlace first ++ rest.getD ts)

end

end Replacer

end TermRewriting
