import TermRewriting.Term.Basic

/-! Options of a call: rules from names to values, alone or in nested lists. The list of an
`Options` keeps the order in which names first came, one entry a name unless a symbol was
declared with more. -/

namespace TermRewriting

abbrev Options := List (String × Term)

namespace Term

def optionName? : Term → Option String
  | .symbol name | .string name => some name
  | _ => none

/-- The name and the value of `name -> value` or `name :> value`. -/
def optionRule? (t : Term) : Option (String × Term) :=
  if t.isCall "Rule" || t.isCall "RuleDelayed" then
    match t.args with
    | [name, value] => name.optionName?.map (·, value)
    | _ => none
  else none

end Term

namespace Options

/-- Gives the first entry of that name the value, or appends an entry. -/
def set (options : Options) (name : String) (value : Term) : Options :=
  match options with
  | [] => [(name, value)]
  | entry :: rest =>
    if entry.1 = name then (name, value) :: rest else entry :: Options.set rest name value

theorem lookup_set (options : Options) (name other : String) (value : Term) :
    (options.set name value).lookup other = if other = name then some value else options.lookup other := by
  induction options with
  | nil => by_cases h : other = name <;> simp [set, List.lookup_cons, h, beq_false_of_ne]
  | cons entry rest ih =>
    obtain ⟨key, old⟩ := entry
    by_cases h : key = name
    · by_cases same : other = name <;> simp [set, List.lookup_cons, h, same, beq_false_of_ne]
    · by_cases same : other = key
      · simp [set, h, same]
      · simp [set, List.lookup_cons, h, ih, beq_false_of_ne same]

def setAll (options new : Options) : Options :=
  new.foldl (fun acc entry => acc.set entry.1 entry.2) options

mutual

/-- Adds the options that a call passes; `none` if the term is not made of options alone. -/
def pass? (options : Options) : Term → Option Options
  | .app head args =>
    if head.isSymbol "List" then passAll? options args
    else (Term.app head args).optionRule?.map fun (name, value) => options.set name value
  | _ => none

def passAll? (options : Options) : List Term → Option Options
  | [] => some options
  | t :: ts => (pass? options t).bind fun options => passAll? options ts

end

mutual

/-- Adds the defaults that a term declares: options, lists of them, and symbols, which bring the
options declared for them. Anything else adds nothing. -/
def declare (declared : String → Option Options) (options : Options) : Term → Options
  | .app head args =>
    if head.isSymbol "List" then declareAll declared options args
    else match (Term.app head args).optionRule? with
      | some (name, value) => options.set name value
      | none => options
  | .symbol name => options.setAll ((declared name).getD [])
  | _ => options

def declareAll (declared : String → Option Options) (options : Options) : List Term → Options
  | [] => options
  | t :: ts => declareAll declared (declare declared options t) ts

end

end Options

end TermRewriting
