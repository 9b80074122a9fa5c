import TermRewriting.Rule

/-! A list of rules that was read once, to be used many times. -/

namespace TermRewriting

structure Dispatch where
  /-- The list of rules that it was made from. -/
  source : Term
  rules : List Rule

namespace Dispatch

mutual

def leaves : Term → List Term
  | .app head args =>
    if head.isSymbol "List" then leavesOfAll args
    else if head.isSymbol "Dispatch" then
      match args with
      | [inner] => leaves inner
      | _ => [.app head args]
    else [.app head args]
  | t => [t]

def leavesOfAll : List Term → List Term
  | [] => []
  | t :: ts => leaves t ++ leavesOfAll ts

end

/-- Reads the rules in order; the first term that is no rule spoils the whole source. -/
def readRules (source : Term) (number : Nat) : List Term → Except ReplacementError (List Rule)
  | [] => return []
  | t :: ts => do
    if !Rule.isRule t then throw (.invalidDispatch source)
    let rule ← Rule.ofTerm [number] t
    return rule :: (← readRules source (number + 1) ts)

def unwrap (t : Term) : Term :=
  if t.isCall "Dispatch" then
    match t.args with
    | [inner] => inner
    | _ => t
  else t

/-- Takes a rule, lists of rules in any nesting, or a dispatch of either. -/
def compile (t : Term) : Except ReplacementError Dispatch :=
  let source := unwrap t
  (readRules source 0 (leaves source)).map fun rules =>
    ⟨if source.isCall "List" then source else .list [source], rules⟩

def toTerm (d : Dispatch) : Term := .call "Dispatch" [d.source]

instance : BEq Dispatch := ⟨fun d e => d.source == e.source⟩

end Dispatch

end TermRewriting
