import TermRewriting.Search.Basic

/-! Consuming a search. A strategy looks at the answers seen so far and goes on or stops; the
journal carries what outlives one search, the inherited options and the notices. -/

namespace TermRewriting

inductive Stop where
  | found
  | excluded
  | limit
deriving DecidableEq, Inhabited

/-- The options that patterns have inherited, each kept from the first time it was asked for, and
the notices in the order in which they came. -/
structure Journal where
  inherited : List (Position × Options) := []
  notices : Array Notice := #[]
deriving Inhabited

namespace Journal

def note (j : Journal) (n : Notice) : Journal := { j with notices := j.notices.push n }

def inherit (j : Journal) (cell : Position) (declared : Options) : Options × Journal :=
  match j.inherited.lookup cell with
  | some options => (options, j)
  | none => (declared, { j with inherited := (cell, declared) :: j.inherited })

/-- Whether the operation has broken down on the way. -/
def isBroken (j : Journal) : Bool := j.notices.toList.any (·.severity == .fatal)

def forget (j : Journal) : Journal := { j with inherited := [] }

end Journal

/-- What to do after the answers seen so far: stop for a reason, or go on. -/
abbrev Strategy (α : Type) := Array α → Option Stop

namespace Strategy

def all : Strategy α := fun _ => none

def upTo (limit : Nat) (stop : Stop) : Strategy α :=
  fun seen => if limit ≤ seen.size then some stop else none

end Strategy

/-- What a consumer is left with; no stop means that the search ran to its end. -/
structure Outcome (α : Type) where
  seen : Array α
  stop : Option Stop
  journal : Journal
deriving Inhabited

/-- The answers and the stop, unless the search has broken down before it came to them. -/
def Outcome.result? (o : Outcome α) : Option (Array α × Option Stop) :=
  if o.journal.isBroken then none else some (o.seen, o.stop)

namespace Search

@[grind =]
def runFrom : Search α → Strategy α → Array α → Journal → Outcome α
  | .done, _, seen, j => ⟨seen, none, j⟩
  | .found a next, strategy, seen, j =>
    let seen := seen.push a
    match strategy seen with
    | some stop => ⟨seen, some stop, j⟩
    | none => runFrom (next ()) strategy seen j
  | .note n next, strategy, seen, j => runFrom (next ()) strategy seen (j.note n)
  | .inherit p declared next, strategy, seen, j =>
    let (options, j) := j.inherit p declared
    runFrom (next options) strategy seen j

def run (s : Search α) (strategy : Strategy α) (j : Journal) : Outcome α :=
  s.runFrom strategy #[] j

def first? (s : Search α) : StateM Journal (Option α) := fun j =>
  let outcome := s.run (.upTo 1 .found) j
  (outcome.seen[0]?, outcome.journal)

def collect (s : Search α) (limit : Option Nat) : StateM Journal (List α) := fun j =>
  if limit = some 0 then ([], j) else
  let outcome := s.run (limit.elim .all (.upTo · .limit)) j
  (outcome.seen.toList, outcome.journal)

end Search

end TermRewriting
