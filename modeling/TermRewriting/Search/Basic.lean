import TermRewriting.Notice
import TermRewriting.Options

/-! Searches that find any number of answers in a fixed order, one at a time. A search is a tree
that is unfolded only as far as its consumer goes; between two answers it may report a notice or
ask for the options that its pattern has inherited. -/

namespace TermRewriting

/-- The place of a construct within a pattern: argument numbers from the root down. -/
abbrev Position := List Nat

inductive Search (α : Type) where
  | done
  | found (answer : α) (next : Unit → Search α)
  | note (notice : Notice) (next : Unit → Search α)
  /-- Goes on with the options kept for the position. Where none are kept yet, the declared ones
  are kept from then on. -/
  | inherit (cell : Position) (declared : Options) (next : Options → Search α)

namespace Search

instance : Inhabited (Search α) := ⟨.done⟩

@[grind =]
def append : Search α → (Unit → Search α) → Search α
  | .done, later => later ()
  | .found a next, later => .found a fun _ => append (next ()) later
  | .note n next, later => .note n fun _ => append (next ()) later
  | .inherit p declared next, later => .inherit p declared fun o => append (next o) later

@[grind =]
protected def bind : Search α → (α → Search β) → Search β
  | .done, _ => .done
  | .found a next, f => append (f a) fun _ => Search.bind (next ()) f
  | .note n next, f => .note n fun _ => Search.bind (next ()) f
  | .inherit p declared next, f => .inherit p declared fun o => Search.bind (next o) f

@[grind =]
protected def map (f : α → β) : Search α → Search β
  | .done => .done
  | .found a next => .found (f a) fun _ => Search.map f (next ())
  | .note n next => .note n fun _ => Search.map f (next ())
  | .inherit p declared next => .inherit p declared fun o => Search.map f (next o)

def one (a : α) : Search α := .found a fun _ => .done

instance : Monad Search where
  pure := one
  bind := Search.bind
  map := Search.map

def filter (holds : α → Bool) : Search α → Search α
  | .done => .done
  | .found a next => if holds a then .found a fun _ => filter holds (next ()) else filter holds (next ())
  | .note n next => .note n fun _ => filter holds (next ())
  | .inherit p declared next => .inherit p declared fun o => filter holds (next o)

/-- Nothing if the first search has an answer, and the second search if it has none. -/
def barring : Search α → (Unit → Search β) → Search β
  | .done, otherwise => otherwise ()
  | .found _ _, _ => .done
  | .note n next, otherwise => .note n fun _ => barring (next ()) otherwise
  | .inherit p declared next, otherwise => .inherit p declared fun o => barring (next o) otherwise

def ofList : List α → Search α
  | [] => .done
  | a :: as => .found a fun _ => ofList as

def ofOption : Option α → Search α
  | none => .done
  | some a => one a

/-- Passes a state along the items: every answer for one item is the state for the next. -/
def thread (step : β → α → Search β) : List α → β → Search β
  | [], state => one state
  | a :: as, state => (step state a).bind fun state => thread step as state

theorem append_done (s : Search α) : s.append (fun _ => .done) = s := by
  induction s with
  | done => rfl
  | found a next ih => simp [append, ih]
  | note n next ih => simp [append, ih]
  | inherit p d next ih => simp [append, ih]

theorem append_assoc (s : Search α) (t u : Unit → Search α) :
    (s.append t).append u = s.append fun _ => (t ()).append u := by
  induction s with
  | done => rfl
  | found a next ih => simp [append, ih]
  | note n next ih => simp [append, ih]
  | inherit p d next ih => simp [append, ih]

theorem append_bind (s : Search α) (t : Unit → Search α) (f : α → Search β) :
    (s.append t).bind f = (s.bind f).append fun _ => (t ()).bind f := by
  induction s with
  | done => rfl
  | found a next ih => simp [append, Search.bind, ih, append_assoc]
  | note n next ih => simp [append, Search.bind, ih]
  | inherit p d next ih => simp [append, Search.bind, ih]

theorem one_bind (a : α) (f : α → Search β) : (one a).bind f = f a := by
  simp [one, Search.bind, append_done]

theorem bind_one (s : Search α) : s.bind one = s := by
  induction s with
  | done => rfl
  | found a next ih => simp [Search.bind, one, append, ih]
  | note n next ih => simp [Search.bind, ih]
  | inherit p d next ih => simp [Search.bind, ih]

theorem bind_assoc (s : Search α) (f : α → Search β) (g : β → Search γ) :
    (s.bind f).bind g = s.bind fun a => (f a).bind g := by
  induction s with
  | done => rfl
  | found a next ih => simp [Search.bind, append_bind, ih]
  | note n next ih => simp [Search.bind, ih]
  | inherit p d next ih => simp [Search.bind, ih]

theorem map_eq_bind (f : α → β) (s : Search α) : s.map f = s.bind fun a => one (f a) := by
  induction s with
  | done => rfl
  | found a next ih => simp [Search.map, Search.bind, one, append, ih]
  | note n next ih => simp [Search.map, Search.bind, ih]
  | inherit p d next ih => simp [Search.map, Search.bind, ih]

end Search

end TermRewriting
