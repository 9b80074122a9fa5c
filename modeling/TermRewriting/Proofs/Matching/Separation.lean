import TermRewriting.Proofs.Matching.Growth
import TermRewriting.Proofs.Term.Part
import TermRewriting.Rule

/-! Variables and options share one list of bindings, and only a mark in front of the names of options
keeps them apart. A match binds variables of the pattern and options of its patterns for options, and a
substitution puts nothing else in. The two are mixed up only where a variable carries the mark. -/

namespace TermRewriting

open Bindings (optionMark optionOf?)

namespace Term

def optionAsked? : Term → Option String
  | .app head [arg] => if head.isSymbol "OptionValue" then arg.optionName? else none
  | _ => none

theorem optionValue?_eq (b : Bindings) (head : Term) (args : List Term) :
    optionValue? b head args = (optionAsked? (.app head args)).bind b.option? := by
  match args with
  | [arg] =>
    simp only [optionValue?, optionAsked?]
    split <;> rfl
  | [] | _ :: _ :: _ => rfl

variable {b : Bindings}

theorem substituteArgs_of_kept {ts : List Term}
    (each : ∀ t ∈ ts, t.substitute b = t ∧ ∀ x, t = .symbol x → b.get? x = none) : substituteArgs b ts = ts := by
  induction ts with
  | nil => rfl
  | cons t ts ih =>
    obtain ⟨same, unbound⟩ := each t (by simp)
    have later := ih fun u member => each u (by simp [member])
    cases t with
    | symbol x => simp [substituteArgs, unbound x rfl, later]
    | _ => simp [substituteArgs, same, later]

/-- Substitution leaves alone what has no bound symbols in it and asks for no bound options. -/
theorem substitute_of_kept {t : Term}
    (symbols : ∀ path x, t.part? path = some (.symbol x) → b.get? x = none)
    (values : ∀ path u name, t.part? path = some u → u.optionAsked? = some name → b.option? name = none) :
    t.substitute b = t := by
  induction t using Term.induct with
  | symbol x => simp [substitute, symbols [] x rfl]
  | app head args head_ih ih =>
    have asked : optionValue? b head args = none := by
      rw [optionValue?_eq]
      cases name : optionAsked? (.app head args) with
      | none => rfl
      | some n => exact values [] _ n rfl name
    have inHead := head_ih (fun path => symbols (0 :: path)) fun path => values (0 :: path)
    have inArgs : substituteArgs b args = args := by
      refine substituteArgs_of_kept fun t member => ?_
      obtain ⟨i, found⟩ := List.getElem?_of_mem member
      have part (path : Path) : (Term.app head args).part? ((i + 1) :: path) = t.part? path := by
        rw [part?, child?, found, Option.bind_some]
      refine ⟨ih t member (fun path x here => ?_) fun path u name here => ?_, ?_⟩
      · exact symbols ((i + 1) :: path) x ((part path).trans here)
      · exact values ((i + 1) :: path) u name ((part path).trans here)
      · rintro x rfl
        exact symbols [i + 1] x (part [])
    rw [substitute, asked, inHead, inArgs]
  | _ => rfl

end Term

namespace Pattern

variable {ev : Evaluator} {p : Pattern} {t : Term} {strategy : Strategy Bindings} {j : Journal}

theorem names_or_bindsOption_of_mem_seen {nb : Bindings}
    (reported : nb ∈ (p.matchOutcome ev t .empty strategy j).seen) {x : String} {value : Term}
    (bound : nb.get? x = some value) :
    x ∈ p.names ∨ ∃ name, x = optionMark ++ name ∧ p.BindsOption ev t j name value := by
  obtain ⟨new, adds⟩ := (way_of_mem_seen reported).adds .whole
  have member : (x, value) ∈ new := by
    have own : new ++ Bindings.empty.entries = new := List.append_nil _
    rw [Bindings.get?, adds.entries, own] at bound
    obtain ⟨newer, older, rfl, -⟩ := List.lookup_eq_some_iff.mp bound
    simp
  cases mark : optionOf? x with
  | none => exact .inl (binds_subset_names p (adds.named x (Bindings.mem_plainNames.mpr ⟨mark, value, member⟩)).1)
  | some name =>
    obtain rfl := Bindings.eq_append_of_optionOf? mark
    exact (adds.given _ member name mark).imp (fun known => binds_subset_names p known) fun given => ⟨name, rfl, given⟩

/-- Whatever a match has bound is a variable of the pattern, or an option that one of its patterns for
options gives that value. So an option has a value only if it is given one, or if a variable of the pattern
carries the mark and its name; a symbol has a value only if it is a variable of the pattern, or carries the
mark and the name of an option that is given. A substitution leaves alone whatever has neither in it. Where
no variable carries the mark, options are only those that are given; there are none if there is no pattern
for options. -/
theorem matchOutcome_separates (ev : Evaluator) (p : Pattern) (t : Term) (strategy : Strategy Bindings)
    (j : Journal) :
    ∀ nb ∈ (p.matchOutcome ev t .empty strategy j).seen,
      (∀ name value, nb.option? name = some value →
        optionMark ++ name ∈ p.names ∨ p.BindsOption ev t j name value) ∧
      (∀ x value, nb.get? x = some value →
        x ∈ p.names ∨ ∃ name, x = optionMark ++ name ∧ p.BindsOption ev t j name value) ∧
      (∀ template : Term,
        (∀ path x, template.part? path = some (.symbol x) → x ∉ p.names ∧ optionOf? x = none) →
        (∀ path u name, template.part? path = some u → u.optionAsked? = some name →
          optionMark ++ name ∉ p.names ∧ ∀ value, ¬p.BindsOption ev t j name value) →
        template.substitute nb = template) ∧
      ((∀ x ∈ p.names, optionOf? x = none) →
        (∀ name value, nb.option? name = some value → p.BindsOption ev t j name value) ∧
        (p.optionPatterns = [] → ∀ name, nb.option? name = none)) := by
  intro nb reported
  have symbols (x : String) (value : Term) (bound : nb.get? x = some value) :
      x ∈ p.names ∨ ∃ name, x = optionMark ++ name ∧ p.BindsOption ev t j name value :=
    names_or_bindsOption_of_mem_seen reported bound
  have options (name : String) (value : Term) (bound : nb.option? name = some value) :
      optionMark ++ name ∈ p.names ∨ p.BindsOption ev t j name value := by
    refine (symbols _ value bound).imp id fun ⟨other, same, given⟩ => ?_
    rwa [(String.append_right_inj optionMark).mp same]
  have separate (unmarked : ∀ x ∈ p.names, optionOf? x = none) (name : String) (value : Term)
      (bound : nb.option? name = some value) : p.BindsOption ev t j name value := by
    refine (options name value bound).resolve_left fun named => ?_
    cases (unmarked _ named).symm.trans (Bindings.optionOf?_optionMark_append name)
  refine ⟨options, symbols, fun template plain unasked => ?_, fun unmarked => ⟨separate unmarked, ?_⟩⟩
  · refine Term.substitute_of_kept (fun path x here => ?_) fun path u name here asked => ?_
    · obtain ⟨other, noOption⟩ := plain path x here
      refine Option.eq_none_iff_forall_not_mem.mpr fun value bound => ?_
      rcases symbols x value bound with named | ⟨name, rfl, -⟩
      · exact other named
      · cases noOption.symm.trans (Bindings.optionOf?_optionMark_append name)
    · obtain ⟨other, notGiven⟩ := unasked path u name here asked
      exact Option.eq_none_iff_forall_not_mem.mpr fun value bound =>
        (options name value bound).elim other (notGiven value)
  · intro none name
    refine Option.eq_none_iff_forall_not_mem.mpr fun value bound => ?_
    obtain ⟨source, member, -⟩ := separate unmarked name value bound
    rw [none] at member
    cases member

/-- `f[x_]` binds `x` and no option, so that `g[y, OptionValue["x"]]` stays as it is. -/
theorem matchOutcome_separates_variable :
    let p := compound (.literal (.symbol "f")) [.named "x" (.wildcard .one none)]
    let nb := Bindings.empty.bind "x" (.integer 1)
    let template := Term.call "g" [.symbol "y", .call "OptionValue" [.string "x"]]
    nb ∈ (p.matchOutcome .bare (.call "f" [.integer 1]) .empty .all {}).seen ∧
      (∀ x ∈ p.names, optionOf? x = none) ∧ (∀ name, nb.option? name = none) ∧
      template.substitute nb = template := by
  intro p nb template
  have reported : nb ∈ (p.matchOutcome .bare (.call "f" [.integer 1]) .empty .all {}).seen :=
    List.mem_toArray.mpr (List.mem_singleton_self nb)
  have unmarked : ∀ x ∈ p.names, optionOf? x = none := by decide
  obtain ⟨-, -, substitutes, separate⟩ :=
    matchOutcome_separates .bare p (.call "f" [.integer 1]) .all {} nb reported
  have inPaths {path : Path} {u : Term} (here : template.part? path = some u) : path ∈ template.paths true :=
    Term.mem_paths.mpr ⟨by rw [here]; rfl, .inl rfl⟩
  have symbols : ∀ path ∈ template.paths true, ∀ x ∈ (template.part? path).bind Term.symbol?,
      x ∉ p.names ∧ optionOf? x = none := by decide
  have asked : ∀ path ∈ template.paths true, ∀ name ∈ (template.part? path).bind Term.optionAsked?,
      optionMark ++ name ∉ p.names := by decide
  refine ⟨reported, unmarked, (separate unmarked).2 rfl, substitutes template (fun path x here => ?_) ?_⟩
  · exact symbols path (inPaths here) x (by rw [here]; rfl)
  · refine fun path u name here asks => ⟨asked path (inPaths here) name (by rw [here]; exact asks), ?_⟩
    rintro value ⟨source, member, -⟩
    cases member

/-- The variable of `_option_a_ -> OptionValue[a]` passes for an option. The option of
`f[OptionsPattern[{}]] -> _option_a` passes for a variable. -/
theorem names_collide :
    let lhs : Term := .call "Pattern" [.symbol "_option_a", .call "Blank" []]
    let marked := named "_option_a" (.wildcard .one none)
    let lhs' : Term := .call "f" [.call "OptionsPattern" [.list []]]
    let taking := compound (.literal (.symbol "f")) [.options [1] (some (.list []))]
    let passing : Term := .call "f" [.call "Rule" [.symbol "a", .integer 1]]
    compile lhs = .ok marked ∧ marked.optionPatterns = [] ∧
      (marked.allMatches .bare (.integer 5) {}).1.map (·.option? "a") = [some (.integer 5)] ∧
      (Rule.apply .bare ⟨marked, lhs, .call "OptionValue" [.symbol "a"], false⟩ (.integer 5) false {}).1 =
        some (.integer 5) ∧
      compile lhs' = .ok taking ∧ "_option_a" ∉ taking.names ∧
      (taking.allMatches .bare passing {}).1.map (·.get? "_option_a") = [some (.integer 1)] ∧
      (Rule.apply .bare ⟨taking, lhs', .symbol "_option_a", false⟩ passing false {}).1 =
        some (.integer 1) :=
  ⟨rfl, rfl, rfl, rfl, rfl, by decide, rfl, rfl⟩

end Pattern

end TermRewriting
