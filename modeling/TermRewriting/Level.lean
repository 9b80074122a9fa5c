import TermRewriting.Error

/-! Levels of a term. The term itself is at level zero, heads and arguments are one level below
what they belong to; a negative level counts depth, so that atoms are at level minus one. -/

namespace TermRewriting

/-- The levels from `start` to `stop`, or from `start` on. -/
structure LevelSpec where
  start : Int
  stop : Option Int
deriving DecidableEq

namespace LevelSpec

def root : LevelSpec := ⟨0, some 0⟩

def all : LevelSpec := ⟨0, none⟩

instance : Inhabited LevelSpec := ⟨root⟩

/-- An end of a range: a number, or `some none` for infinity. -/
def bound? : Term → Option (Option Int)
  | .integer n => some (some n)
  | t =>
    if t.isSymbol "Infinity" then some none
    else if t.isCall "DirectedInfinity" then
      match t.args with
      | [.integer 1] => some none
      | _ => none
    else none

def ofTerm? (t : Term) : Option LevelSpec :=
  if t.isSymbol "All" then some all
  else if t.isCall "List" then
    match t.args with
    | [n] => (bound? n).join.map fun n => ⟨n, some n⟩
    | [m, n] => (bound? m).join.bind fun m => (bound? n).map fun n => ⟨m, n⟩
    | _ => none
  else (bound? t).map fun n => ⟨1, n⟩

def ofTerm (t : Term) : Except ReplacementError LevelSpec :=
  ((ofTerm? t).map .ok).getD (.error (.invalidLevelSpec t))

/-- The level that a machine word stands for: words of 64 bits are read with their sign. -/
def levelOfWord (word : UInt64) : Int := word.toInt64.toInt

/-- Whether levels below that one may still be meant. -/
def goesBelow (s : LevelSpec) (level : Int) : Bool :=
  match s.stop with
  | some stop => stop < 0 || level < stop
  | none => true

def countsDepth (s : LevelSpec) : Bool := s.start < 0 || s.stop.any (· < 0)

/-- Whether a subterm at that level is meant. Bounds are negated exactly; among integers of 64 bits, the least
one has no negation. -/
def admits (s : LevelSpec) (level : Int) (t : Term) : Bool :=
  (if 0 ≤ s.start then s.start ≤ level else (t.depth : Int) ≤ -s.start) &&
  s.stop.all fun stop => if 0 ≤ stop then level ≤ stop else -stop ≤ t.depth

end LevelSpec

end TermRewriting
