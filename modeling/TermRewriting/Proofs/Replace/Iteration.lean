import TermRewriting.Proofs.Replace.Journal

/-! Repeated replacement is replacement in passes, one after the other. Without inherited options a
pass does not depend on those before it. Then limits add up, and what repetition without a limit
comes to is what one more pass leaves as it is. -/

namespace TermRewriting

section

variable {w : Replacer} (independent : Replacer.Corresponds (fun _ _ => True) w w)
include independent

/-- A run that starts where another has come to goes on with it, even if that was at its end. -/
theorem repeatPasses_repeatPasses (n m : Nat) (t : Term) (j k l : Journal) :
    (repeatPasses w m (repeatPasses w n t j).1.1 k).1.1 = (repeatPasses w (n + m) t l).1.1 := by
  rw [((independent.repeatPasses (n + m) t) l j trivial).1, repeatPasses_add]
  cases goes_on : w.evaluator.abortRequested with
  | true => simp [repeatPasses_aborted goes_on]
  | false =>
    by_cases ended : (repeatPasses w n t j).1.2 = .exhausted
    · simp only [if_pos ended]
      exact congrArg Prod.fst (independent.repeatPasses m _ k _ trivial).1
    · obtain ⟨start, nowhere⟩ := exists_pass_of_ended goes_on ended
      have nowhere := ((independent.pass _) k start trivial).1.trans nowhere
      simp only [if_neg ended]
      exact repeatPasses_of_pass goes_on nowhere m

end

section

variable (ev : Evaluator) {rules : Rules} {list : List Rule} (explicit : ∀ r ∈ list, r.lhs.Explicit)
include explicit

/-- Neither the operation nor the journals make a difference. -/
theorem corresponds_of_explicit (o o' : Operation) :
    Replacer.Corresponds (fun _ _ => True) ⟨ev, o, list⟩ ⟨ev, o', list⟩ :=
  Replacer.corresponds_of_allRespect (Rule.allRespect_of_explicit ev explicit) o o'

theorem outermost_eq (o o' : Operation) (t : Term) (j k : Journal) :
    (Replacer.outermost ⟨ev, o, list⟩ t j).1 = (Replacer.outermost ⟨ev, o', list⟩ t k).1 :=
  ((corresponds_of_explicit ev explicit o o').outermost t j k trivial).1

variable (one : rules.list? = some list)
include one

/-- Without inherited options the journal to start from makes no difference. -/
theorem replaceRepeated_of_list (t : Term) (limit : Option Nat) (j k : Journal)
    (ends : limit = none → Replacer.ComesToEnd ⟨ev, .replaceRepeated, list⟩ t k) :
    (replaceRepeated ev t rules limit j).1 =
      .ok (repeatUpTo ⟨ev, .replaceRepeated, list⟩ limit t k).1.1 := by
  obtain ⟨start, -, ran⟩ := Rules.exists_run one (replaceRepeatedWith ev t limit) j
  have replacer := corresponds_of_explicit ev explicit .replaceRepeated .replaceRepeated
  rw [replaceRepeated, ran, replaceRepeatedWith_fst, replacer.repeatUpTo limit trivial ends]

theorem replaceAll_of_list (t : Term) (j k : Journal) :
    (replaceAll ev t rules j).1 =
      .ok ((Replacer.outermost ⟨ev, .replaceAll, list⟩ t k).1.elim t ev.evaluate) := by
  obtain ⟨start, -, ran⟩ := Rules.exists_run one (replaceAllWith ev t) j
  rw [replaceAll, ran, outermost_eq ev explicit .replaceAll .replaceAll t k start]
  rfl

theorem replaceRepeated_one (goes_on : ev.abortRequested = false) (t : Term) (j j' : Journal) :
    ∃ u, (replaceAll ev t rules j).1 = .ok u ∧
      (replaceRepeated ev t rules (some 1) j').1 = .ok (if u == t then t else u) := by
  refine ⟨_, replaceAll_of_list ev explicit one t j j, ?_⟩
  rw [replaceRepeated_of_list ev explicit one t (some 1) j' j nofun, repeatUpTo, repeatPasses_one goes_on,
    outermost_eq ev explicit .replaceAll .replaceRepeated t j j]

theorem replaceRepeated_add (n m : Nat) (t : Term) (j j' j'' : Journal) :
    ∃ u v, (replaceRepeated ev t rules (some n) j).1 = .ok u ∧
      (replaceRepeated ev u rules (some m) j').1 = .ok v ∧
      (replaceRepeated ev t rules (some (n + m)) j'').1 = .ok v := by
  have repeated (t : Term) (limit : Nat) (j : Journal) :=
    replaceRepeated_of_list ev explicit one t (some limit) j j nofun
  have independent := corresponds_of_explicit ev explicit .replaceRepeated .replaceRepeated
  refine ⟨_, _, repeated t n j, repeated _ m j', ?_⟩
  rw [repeated t (n + m) j'']
  exact congrArg Except.ok (repeatPasses_repeatPasses independent n m t j j' j'').symm

/-- The end is where a pass leads nowhere, and any limit that suffices leads there. -/
theorem replaceRepeated_of_comeToEnd (goes_on : ev.abortRequested = false) {t : Term} {start : Journal}
    (ends : rules.ComeToEnd ev t start) :
    ∃ v, (∀ j, (replaceRepeated ev t rules none j).1 = .ok v) ∧
      (∀ j, (Replacer.outermost ⟨ev, .replaceAll, list⟩ v j).1 = none ∨
        ∃ u, (replaceAll ev v rules j).1 = .ok u ∧ (u == v) = true) ∧
      ∃ enough, ∀ n ≥ enough, ∀ j, (replaceRepeated ev t rules (some n) j).1 = .ok v := by
  obtain ⟨list', one', enough, ended⟩ := ends
  obtain rfl := Option.some.inj (one.symm.trans one')
  have repeated (limit : Option Nat) (j : Journal) :=
    replaceRepeated_of_list ev explicit one t limit j start fun _ => ⟨enough, ended⟩
  refine ⟨(repeatPasses ⟨ev, .replaceRepeated, list⟩ enough t start).1.1, fun j => ?_, fun j => ?_,
    enough, fun n more j => ?_⟩
  · rw [repeated none j, repeatUpTo, repeatUntilSettled_of_ended ended]
  · obtain ⟨k, nowhere⟩ := exists_pass_of_ended goes_on ended
    rw [outermost_eq ev explicit .replaceAll .replaceRepeated _ j k]
    rcases Replacer.pass_eq_none_iff.mp nowhere with absent | ⟨result, found, equal⟩
    · exact .inl absent
    · refine .inr ⟨_, replaceAll_of_list ev explicit one _ j k, ?_⟩
      rw [outermost_eq ev explicit .replaceAll .replaceRepeated _ k k, found]
      exact equal
  · rw [repeated (some n) j, repeatUpTo, repeatPasses_of_le more ended]

end

/-- Repeated replacement with one list of rules, none of which inherits options, is replacement in
passes. One pass replaces everywhere, unless that comes to an equal term. Two limits one after the
other are worth their sum. Where repetition without a limit comes to an end, one more pass finds no
rule to apply or comes to an equal term, and any limit that is large enough leads there as well. -/
theorem replaceRepeated_iterates (ev : Evaluator) {rules : Rules} {list : List Rule}
    (one : rules.list? = some list) (explicit : ∀ r ∈ list, r.lhs.Explicit) (t : Term) :
    (ev.abortRequested = false → ∀ j j', ∃ u, (replaceAll ev t rules j).1 = .ok u ∧
      (replaceRepeated ev t rules (some 1) j').1 = .ok (if u == t then t else u)) ∧
    (∀ n m j j' j'', ∃ u v, (replaceRepeated ev t rules (some n) j).1 = .ok u ∧
      (replaceRepeated ev u rules (some m) j').1 = .ok v ∧
      (replaceRepeated ev t rules (some (n + m)) j'').1 = .ok v) ∧
    (ev.abortRequested = false → ∀ j, rules.ComeToEnd ev t j → ∃ v,
      (∀ j, (replaceRepeated ev t rules none j).1 = .ok v) ∧
      (∀ j, (Replacer.outermost ⟨ev, .replaceAll, list⟩ v j).1 = none ∨
        ∃ u, (replaceAll ev v rules j).1 = .ok u ∧ (u == v) = true) ∧
      ∃ enough, ∀ n ≥ enough, ∀ j, (replaceRepeated ev t rules (some n) j).1 = .ok v) :=
  ⟨fun goes_on => replaceRepeated_one ev explicit one goes_on t,
    fun n m => replaceRepeated_add ev explicit one n m t,
    fun goes_on _ => replaceRepeated_of_comeToEnd ev explicit one goes_on⟩

def peeling : Rule where
  lhs := .compound (.literal (.symbol "f")) [.named "x" (.wildcard .one none)]
  source := .call "f" [.call "Pattern" [.symbol "x", .call "Blank" []]]
  rhs := .symbol "x"
  delayed := false

def wrapped : Term := .call "f" [.call "f" [.call "f" [.symbol "a"]]]

theorem replaceRepeated_iterates_peeling :
    (Rules.term peeling.toTerm).list? = some [peeling] ∧ (∀ r ∈ [peeling], r.lhs.Explicit) ∧
      (Rules.term peeling.toTerm).ComeToEnd .bare wrapped {} ∧
      (∃ u v, (replaceRepeated .bare wrapped (.term peeling.toTerm) (some 1) {}).1 = .ok u ∧
        (replaceRepeated .bare u (.term peeling.toTerm) (some 2) {}).1 = .ok v ∧
        (replaceRepeated .bare wrapped (.term peeling.toTerm) (some (1 + 2)) {}).1 = .ok v) ∧
      ∃ v, (replaceRepeated .bare wrapped (.term peeling.toTerm) none {}).1 = .ok v ∧
        ∃ enough, ∀ n ≥ enough, ∀ j,
          (replaceRepeated .bare wrapped (.term peeling.toTerm) (some n) j).1 = .ok v := by
  have one : (Rules.term peeling.toTerm).list? = some [peeling] := rfl
  have explicit : ∀ r ∈ [peeling], r.lhs.Explicit := by
    simp only [List.mem_singleton, forall_eq]
    exact .compound (.literal _) (by simpa using .named "x" (.wildcard .one none))
  have ends : (Rules.term peeling.toTerm).ComeToEnd .bare wrapped {} := ⟨_, one, 4, by decide⟩
  obtain ⟨-, limits, settles⟩ := replaceRepeated_iterates .bare one explicit wrapped
  obtain ⟨v, returned, -, large⟩ := settles rfl {} ends
  exact ⟨one, explicit, ends, limits 1 2 {} {} {}, v, returned {}, large⟩

end TermRewriting
