import TermRewriting.Bindings
import TermRewriting.Evaluator
import TermRewriting.Pattern.Basic

/-! Where a pattern is matched, and what a match consists of. -/

namespace TermRewriting

/-- The place of an element pattern among the elements of a compound one, counted from one. -/
structure Place where
  head : Term
  position : Nat
  count : Nat

/-- A term on its own has no place. Only where `whole` is false may a flat application be matched
in part. -/
structure Context where
  place : Option Place := none
  whole : Bool := true

/-- The arguments of a flat application that a match in part left alone, on either side. -/
structure Leftover where
  before : List Term := []
  after : List Term := []

namespace Leftover

def size (l : Leftover) : Nat := l.before.length + l.after.length

def isEmpty (l : Leftover) : Bool := l.before.isEmpty && l.after.isEmpty

end Leftover

structure Match where
  bindings : Bindings
  left : Leftover := {}

/-- All ways to match a term, starting from the bindings made before. -/
abbrev Matcher := Context → Term → Bindings → Search Match

/-- The keys under which a default value for the place is looked up, the closest first. -/
def Place.defaultKeys (p : Place) : List DefaultKey :=
  match p.head.symbol? with
  | some symbol => [⟨symbol, some p.position, some p.count⟩, ⟨symbol, some p.position, none⟩,
      ⟨symbol, none, none⟩]
  | none => []

namespace Pattern

/-- The default value of an optional pattern: the inline one, or the closest one declared. -/
def default? (ev : Evaluator) (inline : Option Term) (place : Option Place) : Option Term :=
  inline.orElse fun _ => (place.elim [] Place.defaultKeys).findSome? ev.defaultValue

def missingDefault (place : Option Place) : Notice :=
  .missingDefault (place.bind (·.head.symbol?)) (place.map (·.position))

def defaultValue (ev : Evaluator) (inline : Option Term) (place : Option Place) : Search Term :=
  match default? ev inline place with
  | some value => .one value
  | none => .note (missingDefault place) fun _ => .done

def declaredAt (ev : Evaluator) (place : Option Place) : Options :=
  ((place.bind (·.head.symbol?)).bind ev.declaredOptions).getD []

def defaultOptions (ev : Evaluator) (cell : Position) (explicit : Option Term)
    (place : Option Place) : Search Options :=
  match explicit with
  | some t => .one (Options.declare ev.declaredOptions [] t)
  | none => .inherit cell (declaredAt ev place) .one

end Pattern

end TermRewriting
