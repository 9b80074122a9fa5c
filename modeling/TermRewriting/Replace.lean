import TermRewriting.Config
import TermRewriting.RuleTree
import TermRewriting.Traversal

/-! The operations on a term: replacement at levels, everywhere, repeatedly, and in all ways. -/

namespace TermRewriting

/-- Replaces at the levels that are meant, deeper ones first, and evaluates what has changed. -/
def replaceWith (ev : Evaluator) (t : Term) (spec : LevelSpec) (heads : Bool) (rules : List Rule) :
    StateM Journal Term := do
  let result ← Replacer.atLevels ⟨ev, .replace, rules⟩ spec heads 0 t
  return result.elim t ev.evaluate

/-- Replaces the outermost subterms that match, and evaluates what has changed. -/
def replaceAllWith (ev : Evaluator) (t : Term) (rules : List Rule) : StateM Journal Term := do
  let result ← Replacer.outermost ⟨ev, .replaceAll, rules⟩ t
  return result.elim t ev.evaluate

/-- How a repeated replacement came to its end: no pass would change the term, the passes were used
up, or it was asked to stop. -/
inductive Ending where
  | settled
  | exhausted
  | aborted
deriving DecidableEq, Inhabited

/-- Where a pass leads: to the evaluated result, or nowhere if no rule applies or that equals the
term. -/
def Replacer.pass (w : Replacer) (t : Term) : StateM Journal (Option Term) := do
  let result ← w.outermost t
  return (result.map w.evaluator.evaluate).filter (· != t)

/-- Makes passes until one leaves the term as it is, at most so many. -/
def repeatPasses (w : Replacer) : (passes : Nat) → Term → StateM Journal (Term × Ending)
  | passes, t =>
    if w.evaluator.abortRequested then return (.symbol Term.abortedName, .aborted)
    else match passes with
      | 0 => return (t, .exhausted)
      | passes + 1 => do
        match ← w.pass t with
        | none => return (t, .settled)
        | some next => repeatPasses w passes next

def repeatUntilSettled (w : Replacer) : Term → StateM Journal (Term × Ending) :=
  repeatM fun t => do
    if w.evaluator.abortRequested then return .inr (.symbol Term.abortedName, .aborted)
    match ← w.pass t with
    | none => return .inr (t, .settled)
    | some next => return .inl next

def repeatUpTo (w : Replacer) : (limit : Option Nat) → Term → StateM Journal (Term × Ending)
  | some limit => repeatPasses w limit
  | none => repeatUntilSettled w

/-- Replaces in passes until nothing changes. Where there is a limit, passing it is noted. -/
def replaceRepeatedWith (ev : Evaluator) (t : Term) (limit : Option Nat) (rules : List Rule) :
    StateM Journal Term := do
  let (result, ending) ← repeatUpTo ⟨ev, .replaceRepeated, rules⟩ limit t
  match ending, limit with
  | .aborted, _ => modify fun j => j.note .aborted
  | .exhausted, some limit => modify fun j => j.note (.iterationLimit t limit)
  | _, _ => pure ()
  return result

/-- What each rule in turn makes of the term, evaluated, up to the limit. -/
def allResults (ev : Evaluator) (t : Term) : (limit : Option Nat) → List Rule →
    StateM Journal (List Term)
  | _, [] => return []
  | limit, r :: rs => do
    if limit = some 0 then return []
    let found ← r.applyList ev t limit
    let rest ← allResults ev t (limit.map (· - found.length)) rs
    return found.map ev.evaluate ++ rest

def replaceListWith (ev : Evaluator) (t : Term) (limit : Option Nat) (rules : List Rule) :
    StateM Journal Term :=
  return .list (← allResults ev t limit rules)

/-- Reads the levels before the rules; without levels, only the term itself is meant. -/
def replace (ev : Evaluator) (t : Term) (rules : Rules) (levels : Option Term) (heads : Bool) :
    Rewriting Term := do
  let spec ← (levels.elim (.ok .root) LevelSpec.ofTerm : Except ReplacementError LevelSpec)
  rules.run (replaceWith ev t spec heads)

theorem replace_eq (ev : Evaluator) (t : Term) (rules : Rules) (levels : Option Term) (heads : Bool) :
    replace ev t rules levels heads =
      match levels.elim (.ok .root) LevelSpec.ofTerm with
      | .ok spec => rules.run (replaceWith ev t spec heads)
      | .error e => throw e := by
  unfold replace
  cases levels.elim (.ok .root) LevelSpec.ofTerm <;> rfl

def replaceAll (ev : Evaluator) (t : Term) (rules : Rules) : Rewriting Term :=
  rules.run (replaceAllWith ev t)

def replaceRepeated (ev : Evaluator) (t : Term) (rules : Rules) (limit : Option Nat) :
    Rewriting Term :=
  rules.run (replaceRepeatedWith ev t limit)

def replaceList (ev : Evaluator) (t : Term) (rules : Rules) (limit : Option Nat) : Rewriting Term :=
  rules.run (replaceListWith ev t limit)

def matchQ (ev : Evaluator) (pattern t : Term) : Rewriting Bool := do
  let p ← (Pattern.compile pattern : Except ReplacementError Pattern)
  modify Journal.forget
  p.isMatch ev t

namespace Config

def replace (c : Config) (ev : Evaluator) (t : Term) (rules : Rules) (levels : Option Term) :
    Rewriting Term :=
  TermRewriting.replace ev t rules levels c.heads

def replaceRepeated (c : Config) (ev : Evaluator) (t : Term) (rules : Rules) : Rewriting Term :=
  TermRewriting.replaceRepeated ev t rules c.maxIterations

def replaceList (c : Config) (ev : Evaluator) (t : Term) (rules : Rules) : Rewriting Term :=
  TermRewriting.replaceList ev t rules c.maxResults

end Config

end TermRewriting
