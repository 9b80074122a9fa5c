import TermRewriting.Search.Basic

/-! Choices from a list, in a fixed order: contiguous runs, subsets and arrangements. -/

namespace TermRewriting

/-- Some of a list's items, and the others on either side of them. -/
structure Split (α : Type) where
  before : List α
  chosen : List α
  after : List α

namespace Search

def largest (all : Nat) (most : Option Nat) : Nat := most.elim all (min all)

/-- The sizes from `least` to `most`, as far as there are items. -/
def sizes (all least : Nat) (most : Option Nat) (shortestFirst : Bool) : List Nat :=
  let ascending := List.range' least (largest all most + 1 - least)
  if shortestFirst then ascending else ascending.reverse

/-- Runs of contiguous items. They begin at the first item, or at any item from which the longest
run still fits if `anyStart`; for one start all sizes are tried. -/
def runs (xs : List α) (least : Nat) (most : Option Nat) (anyStart shortestFirst : Bool) :
    Search (Split α) :=
  let starts := List.range (if anyStart then xs.length - largest xs.length most + 1 else 1)
  (ofList starts).bind fun start =>
    (ofList (sizes xs.length least most shortestFirst)).map fun size =>
      ⟨xs.take start, (xs.drop start).take size, xs.drop (start + size)⟩

/-- The ways to choose that many fitting items, in lexicographic order, each with the items left. -/
def choose (fits : α → Bool) : List α → Nat → Search (List α × List α)
  | xs, 0 => one ([], xs)
  | [], _ + 1 => .done
  | x :: xs, n + 1 =>
    if xs.length < n then .done
    else
      append
        (if fits x then (choose fits xs n).map fun (chosen, rest) => (x :: chosen, rest) else .done)
        fun _ => (choose fits xs (n + 1)).map fun (chosen, rest) => (chosen, x :: rest)

/-- The most numbers that a list of them can have, at eight bytes each. -/
def capacity : Nat := 0x7FFFFFFFFFFFFFFF / 8

/-- Breaks down first if a list of all sizes from `least` to `most` would be too long, whether or not
there are so many items. -/
def listing (least most : Nat) (next : Search α) : Search α :=
  if capacity < most + 1 - least then .note .capacityOverflow fun _ => next else next

/-- Subsets of fitting items, by size and then in lexicographic order. The empty one comes last
whichever sizes come first. -/
def subsets (fits : α → Bool) (xs : List α) (least : Nat) (most : Option Nat) (shortestFirst : Bool) :
    Search (Split α) :=
  let sizes := sizes xs.length least most shortestFirst
  listing least (most.getD xs.length) <|
    (ofList (sizes.filter (· != 0) ++ sizes.filter (· == 0))).bind fun size =>
      (choose fits xs size).map fun (chosen, rest) => ⟨[], chosen, rest⟩

def picks : List α → List (α × List α)
  | [] => []
  | x :: xs => (x, xs) :: (picks xs).map fun (y, rest) => (y, x :: rest)

def arrangements : Nat → List α → Search (List α)
  | 0, _ => one []
  | n + 1, xs => (ofList (picks xs)).bind fun (x, rest) => (arrangements n rest).map (x :: ·)

def permutations (xs : List α) : Search (List α) := arrangements xs.length xs

end Search

end TermRewriting
