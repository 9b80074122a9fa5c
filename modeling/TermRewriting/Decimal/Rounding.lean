import TermRewriting.Decimal.Basic

/-! Two roundings of a non-negative quotient to a decimal grid: to a fixed number of places, and to
the fewest places that stay inside an interval around it. -/

namespace TermRewriting.Decimal

/-- The whole number nearest to `num / den`; a half goes to the even neighbour. -/
def roundHalfEven (num den : Nat) : Nat :=
  let down := num / den
  match compare (2 * (num % den)) den with
  | .lt => down
  | .gt => down + 1
  | .eq => if down % 2 = 0 then down else down + 1

/-- A number `num / den` among its neighbours: all of the numbers between `low / den` and `high / den`
are nearer to it than to any other of its kind, the two ends with them if `closed`. -/
structure Neighbourhood where
  num : Nat
  den : Nat
  low : Nat
  high : Nat
  closed : Bool

namespace Neighbourhood

def holds (x : Neighbourhood) (places n : Nat) : Bool :=
  let n := n * x.den
  let low := x.low * scale places
  let high := x.high * scale places
  if x.closed then low ≤ n && n ≤ high else low < n && n < high

/-- The point of the grid of that many places that lies in the interval, the nearer one if both
neighbours of the number do; halfway it is the upper one. -/
def onGrid? (x : Neighbourhood) (places : Nat) : Option Nat :=
  let scaled := x.num * scale places
  let down := scaled / x.den
  match x.holds places down, x.holds places (down + 1) with
  | true, true => some (if 2 * (scaled % x.den) < x.den then down else down + 1)
  | true, false => some down
  | false, true => some (down + 1)
  | false, false => none

/-- The coarsest grid from `places` on that has a point in the interval, with that point; only
`more` further grids are tried, and the answer is then the number cut off at the last. -/
def coarsest (x : Neighbourhood) : (more places : Nat) → Nat × Nat
  | 0, places => (x.num * scale places / x.den, places)
  | more + 1, places =>
    match x.onGrid? places with
    | some n => (n, places)
    | none => x.coarsest more (places + 1)

def shortest (x : Neighbourhood) : Nat × Nat := x.coarsest x.den.log2 1

end Neighbourhood

end TermRewriting.Decimal
