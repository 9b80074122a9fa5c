import TermRewriting.Pattern.Compile
import TermRewriting.Pattern.Visit
import TermRewriting.Proofs.Matching.Kept

/-! Which value an option has after a match. What a call passes wins over the defaults, and of two
entries of one name the later one wins. The one exception are options that are inherited with two
entries of one name: only the first of them is overwritten, and the last one still wins. -/

namespace TermRewriting

namespace Options

def last? (options : Options) (name : String) : Option Term := options.reverse.lookup name

def repeats (options : Options) (name : String) : Bool := 2 ≤ options.countP (·.1 == name)

mutual

/-- The options that a term passes, as they are written from left to right; `none` if the term is
not made of options alone. -/
def passed? : Term → Option Options
  | .app head args =>
    if head.isSymbol "List" then passedAll? args else (Term.app head args).optionRule?.map fun rule => [rule]
  | _ => none

def passedAll? : List Term → Option Options
  | [] => some []
  | t :: ts => (passed? t).bind fun first => (passedAll? ts).map fun later => first ++ later

end

mutual

/-- The defaults that a term lists, as they are written from left to right. A symbol stands for the
options declared for it. -/
def listed (declared : String → Option Options) : Term → Options
  | .app head args =>
    if head.isSymbol "List" then listedAll declared args else (Term.app head args).optionRule?.toList
  | .symbol name => (declared name).getD []
  | _ => []

def listedAll (declared : String → Option Options) : List Term → Options
  | [] => []
  | t :: ts => listed declared t ++ listedAll declared ts

end

variable {declared : String → Option Options} {options : Options}

theorem setAll_append (options new later : Options) :
    options.setAll (new ++ later) = (options.setAll new).setAll later := List.foldl_append ..

theorem passAll?_eq {ts : List Term}
    (each : ∀ t ∈ ts, ∀ options, pass? options t = (passed? t).map options.setAll) (options : Options) :
    passAll? options ts = (passedAll? ts).map options.setAll := by
  induction ts generalizing options with
  | nil => rfl
  | cons t ts ih =>
    have later := ih fun u member => each u (by simp [member])
    simp only [passAll?, passedAll?, each t (by simp), later, Option.bind_map, Option.map_bind]
    congr 1
    funext first
    simp [Function.comp_def, setAll_append]

/-- Passing options is setting them in the order in which they are written. -/
theorem pass?_eq (options : Options) (t : Term) : pass? options t = (passed? t).map options.setAll := by
  induction t using Term.induct generalizing options with
  | app head args _ ih =>
    unfold pass? passed?
    split
    · exact passAll?_eq ih options
    · cases (Term.app head args).optionRule? <;> rfl
  | _ => rfl

theorem declareAll_eq {ts : List Term}
    (each : ∀ t ∈ ts, ∀ options, declare declared options t = options.setAll (listed declared t))
    (options : Options) : declareAll declared options ts = options.setAll (listedAll declared ts) := by
  induction ts generalizing options with
  | nil => rfl
  | cons t ts ih =>
    rw [declareAll, listedAll, setAll_append, each t (by simp), ih fun u member => each u (by simp [member])]

/-- Declaring defaults is setting them in the order in which they are listed. -/
theorem declare_eq (options : Options) (t : Term) :
    declare declared options t = options.setAll (listed declared t) := by
  induction t using Term.induct generalizing options with
  | app head args _ ih =>
    unfold declare listed
    split
    · exact declareAll_eq ih options
    · cases (Term.app head args).optionRule? <;> rfl
  | symbol name => rfl
  | _ => rfl

theorem last?_cons (entry : String × Term) (options : Options) (name : String) :
    last? (entry :: options) name =
      (options.last? name).or (if name = entry.1 then some entry.2 else none) := by
  obtain ⟨key, value⟩ := entry
  rw [last?, last?, List.reverse_cons, List.lookup_append]
  by_cases same : name = key <;> simp [List.lookup_cons, same, beq_false_of_ne]

theorem last?_eq_none_iff (options : Options) (name : String) :
    options.last? name = none ↔ options.countP (·.1 == name) = 0 := by
  induction options with
  | nil => simp [last?]
  | cons entry options ih =>
    by_cases same : name = entry.1
    · simp [last?_cons, same]
    · simp [last?_cons, same, ih, Ne.symm same]

theorem repeats_cons (entry : String × Term) (options : Options) (name : String) :
    repeats (entry :: options) name =
      if name = entry.1 then (options.last? name).isSome else options.repeats name := by
  have none := last?_eq_none_iff options name
  by_cases same : name = entry.1
  · rw [Bool.eq_iff_iff, if_pos same, Option.isSome_iff_ne_none, ne_eq, none]
    simp [repeats, same]
  · simp [repeats, same, Ne.symm same]

theorem isSome_of_repeats {options : Options} {name : String} (h : options.repeats name = true) :
    (options.last? name).isSome = true := by
  rw [Option.isSome_iff_ne_none, ne_eq, last?_eq_none_iff]
  rw [repeats, decide_eq_true_eq] at h
  omega

/-- The first entry of the name is overwritten, so that the new value is the last one only if there
is no other entry of it. -/
theorem last?_set (options : Options) (name other : String) (value : Term) :
    (options.set name value).last? other =
      if other = name ∧ options.repeats name = false then some value else options.last? other := by
  induction options with
  | nil =>
    by_cases same : other = name <;> simp [set, last?, repeats, List.lookup_cons, same, beq_false_of_ne]
  | cons entry options ih =>
    obtain ⟨key, old⟩ := entry
    by_cases here : key = name
    · subst here
      rw [set, if_pos rfl, last?_cons, last?_cons, repeats_cons, if_pos rfl]
      by_cases same : other = key
      · subst same
        cases last? options other <;> simp
      · simp [same]
    · have apart : ¬ name = key := fun eq => here eq.symm
      rw [set, if_neg here, last?_cons, last?_cons, repeats_cons, if_neg apart, ih]
      by_cases new : other = name ∧ repeats options name = false
      · obtain ⟨rfl, single⟩ := new
        simp [apart]
      · rw [if_neg new, if_neg new]

theorem repeats_set (options : Options) (name other : String) (value : Term) :
    (options.set name value).repeats other = options.repeats other := by
  induction options with
  | nil => by_cases same : name = other <;> simp [set, repeats, same]
  | cons entry options ih =>
    obtain ⟨key, old⟩ := entry
    by_cases here : key = name
    · rw [set, if_pos here, repeats_cons, repeats_cons, here]
    · rw [set, if_neg here, repeats_cons, repeats_cons, ih, last?_set]
      split
      · next same =>
        rw [if_neg]
        rintro ⟨rfl, -⟩
        exact here same.symm
      · rfl

/-- What is set last wins, unless the name was there more than once before. -/
theorem last?_setAll (options new : Options) (name : String) :
    (options.setAll new).last? name =
      if options.repeats name then options.last? name
      else (new.last? name).or (options.last? name) := by
  induction new generalizing options with
  | nil => simp [setAll, last?]
  | cons entry new ih =>
    change ((options.set entry.1 entry.2).setAll new).last? name = _
    rw [ih, repeats_set, last?_set, last?_cons]
    by_cases same : name = entry.1
    · subst same
      cases repeats options entry.1 <;> simp
    · simp [same]

theorem repeats_setAll (options new : Options) (name : String) :
    (options.setAll new).repeats name = options.repeats name := by
  induction new generalizing options with
  | nil => rfl
  | cons entry new ih => exact (ih _).trans (repeats_set ..)

end Options

namespace Bindings

theorem option?_bindOptions (b : Bindings) (options : Options) (name : String) :
    (b.bindOptions options).option? name = (options.last? name).or (b.option? name) := by
  induction options generalizing b with
  | nil => rfl
  | cons entry options ih =>
    have marked : optionMark ++ name = optionMark ++ entry.1 ↔ name = entry.1 := by
      simp [String.append_right_inj]
    have now : (b.bindOption entry.1 entry.2).option? name =
        if name = entry.1 then some entry.2 else b.option? name := by
      rw [option?, bindOption, get?_bind]
      simp only [marked]
      rfl
    change ((b.bindOption entry.1 entry.2).bindOptions options).option? name = _
    rw [ih, now, Options.last?_cons]
    by_cases same : name = entry.1 <;> cases Options.last? options name <;> simp [same]

end Bindings

namespace Pattern

/-- The defaults of an options pattern as they are listed: its own, or those that are kept for it, or
those declared for what encloses it. -/
def listedDefaults (ev : Evaluator) (cell : Position) (explicit : Option Term) (place : Option Place)
    (j : Journal) : Options :=
  match explicit with
  | some t => Options.listed ev.declaredOptions t
  | none => (j.inherit cell (declaredAt ev place)).1

/-- An options pattern sets what is passed on top of its defaults, and binds all of it. -/
theorem answers_options (ev : Evaluator) (cell : Position) (explicit : Option Term) (c : Context)
    (t : Term) (b : Bindings) (j : Journal) :
    ∃ defaults : Options,
      (∀ name, defaults.last? name = (listedDefaults ev cell explicit c.place j).last? name) ∧
      (∀ name, defaults.repeats name =
        (explicit.isNone && (listedDefaults ev cell explicit c.place j).repeats name)) ∧
      ((search ev (.options cell explicit) c t b).answers j).1 =
        (Options.passedAll? t.items).toList.map fun given => ⟨b.bindOptions (defaults.setAll given), {}⟩ := by
  have given (defaults : Options) : Options.passAll? defaults t.items =
      (Options.passedAll? t.items).map defaults.setAll :=
    Options.passAll?_eq (fun t _ options => Options.pass?_eq options t) defaults
  cases explicit with
  | none =>
    refine ⟨listedDefaults ev cell none c.place j, fun _ => rfl, fun _ => rfl, ?_⟩
    simp only [search, defaultOptions, Search.bind, Search.one_bind, Search.answers, given]
    cases Options.passedAll? t.items <;> rfl
  | some listing =>
    refine ⟨Options.declare ev.declaredOptions [] listing, fun name => ?_, fun name => ?_, ?_⟩
    · rw [Options.declare_eq, Options.last?_setAll]
      simp [listedDefaults, Options.repeats, Options.last?]
    · rw [Options.declare_eq, Options.repeats_setAll]
      rfl
    · simp only [search, defaultOptions, Search.one_bind, given]
      cases Options.passedAll? t.items <;> rfl

/-- A match of an options pattern gives each option the last value that is passed for it, else the
last of the defaults listed for it, else the value that it had. It binds nothing else, and there is
no match if something other than options is passed. Only where more than one default is inherited
for an option, the last of these stays whatever is passed. -/
theorem option?_after_match (ev : Evaluator) (cell : Position) (explicit : Option Term) (c : Context)
    (t : Term) (b : Bindings) (j : Journal) :
    match Options.passedAll? t.items with
    | none => ((search ev (.options cell explicit) c t b).answers j).1 = []
    | some given => ∃ m, ((search ev (.options cell explicit) c t b).answers j).1 = [⟨m, {}⟩] ∧
      (∀ x, Bindings.optionOf? x = none → m.get? x = b.get? x) ∧
      ∀ name, m.option? name =
        let defaults := listedDefaults ev cell explicit c.place j
        if explicit = none ∧ defaults.repeats name then defaults.last? name
        else (given.last? name).or ((defaults.last? name).or (b.option? name)) := by
  obtain ⟨defaults, last, repeated, answers⟩ := answers_options ev cell explicit c t b j
  cases passed : Options.passedAll? t.items with
  | none => simp [answers, passed]
  | some given =>
    refine ⟨b.bindOptions (defaults.setAll given), by simp [answers, passed], fun x unmarked => ?_, fun name => ?_⟩
    · have steps : Bindings.Steps [] fun b m => m.get? x = b.get? x := .get? (by simp) unmarked
      exact steps.bindOptions _ b
    · rw [Bindings.option?_bindOptions, Options.last?_setAll, last, repeated]
      dsimp only
      by_cases kept : explicit = none ∧ (listedDefaults ev cell explicit c.place j).repeats name = true
      · obtain ⟨rfl, many⟩ := kept
        obtain ⟨value, found⟩ := Option.isSome_iff_exists.mp (Options.isSome_of_repeats many)
        simp [many, found]
      · have single : (explicit.isNone && (listedDefaults ev cell explicit c.place j).repeats name) = false := by
          cases explicit with
          | none => simpa using kept
          | some listing => rfl
        rw [single, if_neg kept, if_neg Bool.false_ne_true, Option.or_assoc]

def declaringTwice : Evaluator :=
  { Evaluator.bare with
    declaredOptions := fun name => if name = "f" then some [("a", .integer 1), ("a", .integer 2)] else none }

/-- `f[OptionsPattern[]]` matches `f[a -> 3]` with the value 2 for `a`: the first of the two inherited
entries is overwritten, and the second one wins. -/
theorem option?_inherited_twice :
    compile (.call "f" [.call "OptionsPattern" []]) =
        .ok (.compound (.literal (.symbol "f")) [.options [1] none]) ∧
      Options.passedAll? [.call "Rule" [.symbol "a", .integer 3]] = some [("a", .integer 3)] ∧
      ((compound (.literal (.symbol "f")) [.options [1] none]).allMatches declaringTwice
        (.call "f" [.call "Rule" [.symbol "a", .integer 3]]) {}).1.map (·.option? "a") =
        [some (.integer 2)] :=
  ⟨rfl, rfl, rfl⟩

end Pattern

end TermRewriting
