import TermRewriting.Term.Basic

/-! What a match has bound so far. Variables and option values share one list of entries; the name
of an option stands in it behind a mark. -/

namespace TermRewriting

/-- The entries, newest first, and their number, which is kept along with them. A newer entry hides
the older ones of its name. -/
structure Bindings where
  entries : List (String × Term) := []
  size : Nat := 0
deriving Inhabited

namespace Bindings

def empty : Bindings := {}

def isEmpty (b : Bindings) : Bool := b.size == 0

def get? (b : Bindings) (name : String) : Option Term := b.entries.lookup name

def contains (b : Bindings) (name : String) : Bool := (b.get? name).isSome

def bind (b : Bindings) (name : String) (value : Term) : Bindings :=
  ⟨(name, value) :: b.entries, b.size + 1⟩

def optionMark : String := "_option_"

def option? (b : Bindings) (name : String) : Option Term := b.get? (optionMark ++ name)

def bindOption (b : Bindings) (name : String) (value : Term) : Bindings :=
  b.bind (optionMark ++ name) value

def bindOptions (b : Bindings) (options : List (String × Term)) : Bindings :=
  options.foldl (fun b entry => b.bindOption entry.1 entry.2) b

/-- The option that an entry of this name is for, if the name carries the mark. -/
def optionOf? (key : String) : Option String :=
  if optionMark.toList.isPrefixOf key.toList then
    some (String.ofList (key.toList.drop optionMark.length))
  else none

def visible : List (String × Term) → List (String × Term)
  | [] => []
  | entry :: older => entry :: (visible older).filter fun e => e.1 != entry.1

def variableValues (b : Bindings) : List (String × Term) :=
  visible (b.entries.filter fun e => (optionOf? e.1).isNone)

def optionValues (b : Bindings) : List (String × Term) :=
  visible (b.entries.filterMap fun e => (optionOf? e.1).map (·, e.2))

theorem get?_bind (b : Bindings) (name other : String) (value : Term) :
    (b.bind name value).get? other = if other = name then some value else b.get? other := by
  simp only [get?, bind, List.lookup_cons]
  by_cases h : other = name
  · simp [h]
  · simp [h, beq_false_of_ne h]

end Bindings

end TermRewriting
