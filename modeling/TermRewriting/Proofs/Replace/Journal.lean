import TermRewriting.Proofs.Rule
import TermRewriting.Proofs.Replace.Passes

/-! Operations that cannot be told apart from two journals. Where the results of the rules respect
a relation between journals, so does whatever an operation makes of them: the journals have an
influence on nothing but the options that are inherited, and the operation is told in notices only. -/

namespace TermRewriting

open Journal (corresponds_pure corresponds_note)

variable {Q : List (Position × Options) → List (Position × Options) → Prop} {ev : Evaluator}
  {rules : List Rule}

/-- The results of each rule ask for inherited options only where related journals answer alike. -/
def Rule.AllRespect (Q : List (Position × Options) → List (Position × Options) → Prop)
    (ev : Evaluator) (rules : List Rule) : Prop :=
  ∀ r ∈ rules, ∀ t whole, (r.results ev t whole).Respects Q

theorem Rule.allRespect_eq (ev : Evaluator) (rules : List Rule) : Rule.AllRespect Eq ev rules :=
  fun r _ t whole => (r.results ev t whole).respects_eq

theorem Rule.allRespect_of_explicit (ev : Evaluator) (explicit : ∀ r ∈ rules, r.lhs.Explicit) :
    Rule.AllRespect Q ev rules := fun r member _ whole =>
  (Rule.closed_results (explicit r member) whole).respects

namespace Replacer

/-- The same evaluator, and results at each term that correspond. -/
structure Corresponds (Q : List (Position × Options) → List (Position × Options) → Prop)
    (w w' : Replacer) : Prop where
  evaluator : w.evaluator = w'.evaluator
  applyAt : ∀ t, Journal.Corresponds Q (w.applyAt t) (w'.applyAt t)

theorem corresponds_firstResult (respect : Rule.AllRespect Q ev rules) (o o' : Operation) (t : Term) :
    Journal.Corresponds Q (firstResult ev o t rules) (firstResult ev o' t rules) := by
  induction rules with
  | nil => exact corresponds_pure none
  | cons r rules ih =>
    have here := Rule.corresponds_apply (respect r (by simp) t false)
    refine here.bind fun result => ?_
    cases result with
    | some result => exact (corresponds_note _ _).bind fun _ => corresponds_pure _
    | none => exact ih fun r member => respect r (by simp [member])

theorem corresponds_of_allRespect (respect : Rule.AllRespect Q ev rules) (o o' : Operation) :
    Corresponds Q ⟨ev, o, rules⟩ ⟨ev, o', rules⟩ :=
  ⟨rfl, corresponds_firstResult respect o o'⟩

theorem corresponds_self (w : Replacer) : Corresponds Eq w w :=
  corresponds_of_allRespect (Rule.allRespect_eq w.evaluator w.rules) w.operation w.operation

variable {w w' : Replacer}

theorem corresponds_outermostArgs {ts : List Term}
    (each : ∀ t ∈ ts, Journal.Corresponds Q (w.outermost t) (w'.outermost t)) :
    Journal.Corresponds Q (w.outermostArgs ts) (w'.outermostArgs ts) := by
  induction ts with
  | nil => exact corresponds_pure none
  | cons t ts ih =>
    have later := ih fun t member => each t (by simp [member])
    exact (each t (by simp)).bind fun _ => later.bind fun _ => corresponds_pure _

theorem Corresponds.outermost (h : Corresponds Q w w') (t : Term) :
    Journal.Corresponds Q (w.outermost t) (w'.outermost t) := by
  induction t using Term.induct with
  | app head args head_ih ih =>
    simp only [Replacer.outermost]
    refine (h.applyAt _).bind fun result => ?_
    cases result with
    | some t => exact corresponds_pure (some t)
    | none =>
      exact head_ih.bind fun _ => (corresponds_outermostArgs ih).bind fun _ => corresponds_pure _
  | _ => exact h.applyAt _

variable {spec : LevelSpec} {heads : Bool}

theorem corresponds_atLevelsArgs {level : Nat} {ts : List Term}
    (each : ∀ t ∈ ts,
      Journal.Corresponds Q (w.atLevels spec heads level t) (w'.atLevels spec heads level t)) :
    Journal.Corresponds Q (w.atLevelsArgs spec heads level ts)
      (w'.atLevelsArgs spec heads level ts) := by
  induction ts with
  | nil => exact corresponds_pure none
  | cons t ts ih =>
    have later := ih fun t member => each t (by simp [member])
    exact (each t (by simp)).bind fun _ => later.bind fun _ => corresponds_pure _

theorem Corresponds.atLevels (h : Corresponds Q w w') (level : Nat) (t : Term) :
    Journal.Corresponds Q (w.atLevels spec heads level t) (w'.atLevels spec heads level t) := by
  induction t using Term.induct generalizing level with
  | app head args head_ih ih =>
    have inArgs := corresponds_atLevelsArgs fun t member => ih t member (level + 1)
    have here (below : Option Term) (current : Term) :=
      Journal.Corresponds.ite (spec.admits level current)
        ((h.applyAt current).bind fun result => corresponds_pure (result.or below))
        (corresponds_pure below)
    simp only [Replacer.atLevels, pure_bind]
    refine .ite _ (.ite _ ?_ ?_) (here _ _)
    · exact (head_ih (level + 1)).bind fun _ => inArgs.bind fun _ => here _ _
    · exact inArgs.bind fun _ => here _ _
  | _ => exact .ite _ (h.applyAt _) (corresponds_pure none)

theorem Corresponds.pass (h : Corresponds Q w w') (t : Term) :
    Journal.Corresponds Q (w.pass t) (w'.pass t) := by
  simp only [Replacer.pass, h.evaluator]
  exact (h.outermost t).bind fun _ => corresponds_pure _

theorem Corresponds.repeatPasses (h : Corresponds Q w w') (n : Nat) (t : Term) :
    Journal.Corresponds Q (repeatPasses w n t) (repeatPasses w' n t) := by
  induction n generalizing t with
  | zero =>
    unfold TermRewriting.repeatPasses
    rw [h.evaluator]
    exact .ite _ (corresponds_pure _) (corresponds_pure _)
  | succ n ih =>
    unfold TermRewriting.repeatPasses
    rw [h.evaluator]
    refine .ite _ (corresponds_pure _) ((h.pass t).bind fun led => ?_)
    cases led with
    | none => exact corresponds_pure _
    | some next => exact ih next

theorem Corresponds.comesToEnd (h : Corresponds Q w w') {t : Term} {j j' : Journal}
    (related : Q j.inherited j'.inherited) : w.ComesToEnd t j ↔ w'.ComesToEnd t j' :=
  exists_congr fun n => by rw [(h.repeatPasses n t j j' related).1]

/-- Of passes without a limit nothing is known unless they come to an end. -/
theorem Corresponds.repeatUpTo (h : Corresponds Q w w') (limit : Option Nat) {t : Term} {j j' : Journal}
    (related : Q j.inherited j'.inherited) (ends : limit = none → w.ComesToEnd t j) :
    (repeatUpTo w limit t j).1 = (repeatUpTo w' limit t j').1 := by
  cases limit with
  | some limit => exact (h.repeatPasses limit t j j' related).1
  | none =>
    obtain ⟨n, ended⟩ := ends rfl
    have same := (h.repeatPasses n t j j' related).1
    simp only [TermRewriting.repeatUpTo, repeatUntilSettled_of_ended ended,
      repeatUntilSettled_of_ended (same ▸ ended), same]

end Replacer

section

variable (respect : Rule.AllRespect Q ev rules) (t : Term)
include respect

theorem corresponds_replaceWith (spec : LevelSpec) (heads : Bool) :
    Journal.Corresponds Q (replaceWith ev t spec heads rules) (replaceWith ev t spec heads rules) :=
  ((Replacer.corresponds_of_allRespect respect _ _).atLevels 0 t).bind fun _ => corresponds_pure _

theorem corresponds_replaceAllWith :
    Journal.Corresponds Q (replaceAllWith ev t rules) (replaceAllWith ev t rules) :=
  ((Replacer.corresponds_of_allRespect respect _ _).outermost t).bind fun _ => corresponds_pure _

theorem corresponds_allResults (limit : Option Nat) :
    Journal.Corresponds Q (allResults ev t limit rules) (allResults ev t limit rules) := by
  induction rules generalizing limit with
  | nil => exact corresponds_pure []
  | cons r rules ih =>
    have found := Rule.corresponds_applyList (respect r (by simp) t true) limit
    have later := ih fun r member => respect r (by simp [member])
    unfold allResults
    exact .ite _ (corresponds_pure []) (found.bind fun _ => (later _).bind fun _ => corresponds_pure _)

theorem corresponds_replaceListWith (limit : Option Nat) :
    Journal.Corresponds Q (replaceListWith ev t limit rules) (replaceListWith ev t limit rules) :=
  (corresponds_allResults respect t limit).bind fun _ => corresponds_pure _

end

end TermRewriting
