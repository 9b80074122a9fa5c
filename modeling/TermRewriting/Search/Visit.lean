import TermRewriting.Search.Choice
import TermRewriting.Search.Run

/-! Visiting answers while they are found. A visitor is handed one answer at a time and says after
each whether the search goes on. Nothing is kept between two answers but the journal and what the
visitor keeps for itself. -/

namespace TermRewriting

abbrev Flow := Option Stop

/-- A part of a search, carried out. It changes the journal and what its visitor keeps. -/
def Visit (κ : Type) := Journal × κ → Flow × (Journal × κ)

namespace Visit

variable {α β κ : Type}

def proceed : Visit κ := fun s => (none, s)

def stop (reason : Stop) : Visit κ := fun s => (some reason, s)

def andThen (first : Visit κ) (second : Unit → Visit κ) : Visit κ := fun s =>
  match first s with
  | (some reason, s) => (some reason, s)
  | (none, s) => second () s

/-- Nothing if the probe stops because something is excluded, and the second part if the probe goes
on to its end. Every other reason stops both. -/
def barring (probe : Visit κ) (second : Unit → Visit κ) : Visit κ := fun s =>
  match probe s with
  | (some .excluded, s) => (none, s)
  | (some reason, s) => (some reason, s)
  | (none, s) => second () s

def note (n : Notice) (next : Visit κ) : Visit κ := fun (j, kept) => next (j.note n, kept)

def inherit (cell : Position) (declared : Options) (next : Options → Visit κ) : Visit κ :=
  fun (j, kept) =>
    let (options, j) := j.inherit cell declared
    next options (j, kept)

def each : List α → (α → Visit κ) → Visit κ
  | [], _ => proceed
  | a :: as, k => (k a).andThen fun _ => each as k

/-- Passes a state along the items, as far as the step yields one. -/
def thread (step : β → α → (β → Visit κ) → Visit κ) : List α → β → (β → Visit κ) → Visit κ
  | [], state, k => k state
  | a :: as, state, k => step state a fun state => thread step as state k

def follow (strategy : Strategy α) (a : α) : Visit (Array α) := fun (j, seen) =>
  let seen := seen.push a
  (strategy seen, (j, seen))

def outcome (search : (α → Visit (Array α)) → Visit (Array α)) (strategy : Strategy α) (j : Journal) :
    Outcome α :=
  let (stop, j, seen) := search (follow strategy) (j, #[])
  ⟨seen, stop, j⟩

def runs (xs : List α) (least : Nat) (most : Option Nat) (anyStart shortestFirst : Bool)
    (k : (chosen before after : List α) → Visit κ) : Visit κ :=
  let most := Search.largest xs.length most
  if most < least then proceed
  else
    let ascending := List.range' least (most + 1 - least)
    let sizes := if shortestFirst then ascending else ascending.reverse
    each (List.range (if anyStart then xs.length - most + 1 else 1)) fun start =>
      each sizes fun size => k ((xs.drop start).take size) (xs.take start) (xs.drop (start + size))

variable {μ : Type}

/-- What is handed over is read off the working memory, which stays as it is. -/
def reading (k : μ → Visit κ) : Visit (μ × κ) := fun (j, memory, kept) =>
  let (flow, j, kept) := k memory (j, kept)
  (flow, j, memory, kept)

/-- Changes the working memory for a part of the search and changes it back afterwards, whether that
part goes on or stops. -/
def during (enter leave : μ → μ) (part : Visit (μ × κ)) : Visit (μ × κ) := fun (j, memory, kept) =>
  let (flow, j, memory, kept) := part (j, enter memory, kept)
  (flow, j, leave memory, kept)

/-- Starts with that working memory, which is given up in the end. -/
def startingWith (memory : μ) (search : Visit (μ × κ)) : Visit κ := fun (j, kept) =>
  let (flow, j, _, kept) := search (j, memory, kept)
  (flow, j, kept)

/-- The items chosen and those skipped on the way to the items that are left. -/
structure Stacks (α : Type) where
  chosen : List α := []
  skipped : List α := []

namespace Stacks

def choose (s : Stacks α) (x : α) : Stacks α := { s with chosen := s.chosen ++ [x] }

def unchoose (s : Stacks α) : Stacks α := { s with chosen := s.chosen.dropLast }

def skip (s : Stacks α) (x : α) : Stacks α := { s with skipped := s.skipped ++ [x] }

def unskip (s : Stacks α) : Stacks α := { s with skipped := s.skipped.dropLast }

end Stacks

/-- The items that are still to be arranged, and those that are. -/
structure Arranging (α : Type) where
  pool : List α
  arranged : List α := []

namespace Arranging

def place (s : Arranging α) (i : Nat) (x : α) : Arranging α := ⟨s.pool.eraseIdx i, s.arranged ++ [x]⟩

def unplace (s : Arranging α) (i : Nat) (x : α) : Arranging α :=
  ⟨s.pool.insertIdx i x, s.arranged.dropLast⟩

end Arranging

def placing (i : Nat) (part : Visit (Arranging α × κ)) : Visit (Arranging α × κ) :=
  fun (j, memory, kept) =>
    match memory.pool[i]? with
    | some x => during (·.place i x) (·.unplace i x) part (j, memory, kept)
    | none => (none, j, memory, kept)

/-- The arrangements of so many items of the pool, each behind those arranged before. -/
def arrangements (k : List α → Visit κ) : (count : Nat) → Visit (Arranging α × κ)
  | 0 => reading fun s => k s.arranged
  | n + 1 => each (List.range (n + 1)) fun i => placing i (arrangements k n)

def permutations (xs : List α) (k : List α → Visit κ) : Visit κ :=
  startingWith ⟨xs, []⟩ (arrangements k xs.length)

variable [BEq α]

/-- The ways to choose that many of the included items from those that are left, after some have
been chosen and others skipped. -/
def choose (included : List α) (k : (chosen left : List α) → Visit κ) :
    (rest : List α) → (count : Nat) → Visit (Stacks α × κ)
  | rest, 0 => reading fun s => k s.chosen (s.skipped ++ rest)
  | [], _ + 1 => proceed
  | x :: rest, n + 1 =>
    if rest.length < n then proceed
    else if rest.length = n then
      if (x :: rest).all included.contains then reading fun s => k (s.chosen ++ x :: rest) s.skipped
      else proceed
    else
      (if included.contains x then during (·.choose x) (·.unchoose) (choose included k rest n)
        else proceed).andThen
      fun _ => during (·.skip x) (·.unskip) (choose included k rest (n + 1))

/-- Moves a count of zero from the front to the end. -/
def zeroLast (counts : List Nat) : List Nat :=
  if counts.head? = some 0 then counts.rotateLeft 1 else counts

/-- The subsets of included items with the sizes from `least` to `most`, each with the items left. -/
def subsetsSized (xs included : List α) (least most : Nat) (shortestFirst : Bool)
    (k : (chosen left : List α) → Visit κ) : Visit κ :=
  let ascending := List.range' least (most + 1 - least)
  let counts := if shortestFirst then ascending else ascending.reverse
  each (zeroLast counts) fun count => startingWith {} (choose included k xs count)

/-- The subsets of included items, each with the items left. All sizes are listed first, those of more
items than there are among them; where that list would be too long, the search breaks down. -/
def subsets (xs included : List α) (least : Nat) (most : Option Nat) (shortestFirst : Bool)
    (k : (chosen left : List α) → Visit κ) : Visit κ :=
  let most := most.getD xs.length
  if most < least then proceed
  else if Search.capacity < most + 1 - least then
    -- The sizes beyond the number of items have no subsets, and nothing here counts any more.
    note .capacityOverflow (subsetsSized xs included least (min most xs.length) shortestFirst k)
  else subsetsSized xs included least most shortestFirst k

end Visit

end TermRewriting
