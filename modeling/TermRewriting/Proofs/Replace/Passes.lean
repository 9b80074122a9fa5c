import TermRewriting.Proofs.RuleTree
import TermRewriting.Replace

/-! Passes in a row. A limit on the number of passes may be split in two, and repetition without a
limit comes to what enough passes come to. -/

namespace TermRewriting

variable {w : Replacer} {t : Term} {j : Journal}

theorem Replacer.pass_fst (w : Replacer) (t : Term) (j : Journal) :
    (w.pass t j).1 = ((w.outermost t j).1.map w.evaluator.evaluate).filter (· != t) := rfl

theorem Replacer.pass_eq_none_iff :
    (w.pass t j).1 = none ↔ (w.outermost t j).1 = none ∨
      ∃ result, (w.outermost t j).1 = some result ∧ (w.evaluator.evaluate result == t) = true := by
  rw [pass_fst]
  cases (w.outermost t j).1 with
  | none => simp
  | some result => simp [Option.filter_eq_none_iff, bne]

theorem repeatPasses_aborted (abort : w.evaluator.abortRequested = true) (n : Nat) (t : Term)
    (j : Journal) : repeatPasses w n t j = ((.symbol Term.abortedName, .aborted), j) := by
  unfold repeatPasses
  rw [if_pos abort]
  rfl

theorem repeatPasses_zero (goes_on : w.evaluator.abortRequested = false) (t : Term) (j : Journal) :
    repeatPasses w 0 t j = ((t, .exhausted), j) := by
  unfold repeatPasses
  rw [if_neg (by simp [goes_on])]
  rfl

theorem repeatPasses_succ (goes_on : w.evaluator.abortRequested = false) (n : Nat) (t : Term)
    (j : Journal) :
    repeatPasses w (n + 1) t j =
      match w.pass t j with
      | (none, j) => ((t, .settled), j)
      | (some next, j) => repeatPasses w n next j := by
  rw [repeatPasses, if_neg (by simp [goes_on])]
  simp only [bind, StateT.bind]
  rcases w.pass t j with ⟨_ | next, j⟩ <;> rfl

theorem repeatPasses_add (w : Replacer) (n m : Nat) (t : Term) (j : Journal) :
    repeatPasses w (n + m) t j =
      let first := repeatPasses w n t j
      if first.1.2 = .exhausted then repeatPasses w m first.1.1 first.2 else first := by
  cases goes_on : w.evaluator.abortRequested with
  | true => simp [repeatPasses_aborted goes_on]
  | false =>
    induction n generalizing t j with
    | zero => simp [repeatPasses_zero goes_on]
    | succ n ih =>
      rw [Nat.succ_add, repeatPasses_succ goes_on, repeatPasses_succ goes_on]
      rcases w.pass t j with ⟨_ | next, j⟩
      · simp
      · exact ih next j

theorem repeatPasses_of_le {n m : Nat} (more : n ≤ m) (ended : (repeatPasses w n t j).1.2 ≠ .exhausted) :
    repeatPasses w m t j = repeatPasses w n t j := by
  obtain ⟨extra, rfl⟩ := Nat.exists_eq_add_of_le more
  rw [repeatPasses_add]
  exact if_neg ended

theorem exists_pass_of_ended (goes_on : w.evaluator.abortRequested = false) {n : Nat}
    (ended : (repeatPasses w n t j).1.2 ≠ .exhausted) :
    ∃ start, (w.pass (repeatPasses w n t j).1.1 start).1 = none := by
  induction n generalizing t j with
  | zero => simp [repeatPasses_zero goes_on] at ended
  | succ n ih =>
    rw [repeatPasses_succ goes_on] at ended ⊢
    rcases led : w.pass t j with ⟨_ | next, after⟩
    · exact ⟨j, congrArg Prod.fst led⟩
    · rw [led] at ended
      exact ih ended

theorem repeatPasses_one (goes_on : w.evaluator.abortRequested = false) (t : Term) (j : Journal) :
    (repeatPasses w 1 t j).1.1 =
      let u := (w.outermost t j).1.elim t w.evaluator.evaluate
      if u == t then t else u := by
  rw [repeatPasses_succ goes_on]
  rcases led : w.pass t j with ⟨_ | next, after⟩
  · rcases Replacer.pass_eq_none_iff.mp (congrArg Prod.fst led) with absent | ⟨result, found, equal⟩
    · simp [absent]
    · simp [found, equal]
  · have kept := (w.pass_fst t j).symm.trans (congrArg Prod.fst led)
    obtain ⟨changed, differs⟩ := Option.filter_eq_some_iff.mp kept
    obtain ⟨result, found, rfl⟩ := Option.map_eq_some_iff.mp changed
    simp only [bne, Bool.not_eq_true'] at differs
    simp [found, repeatPasses_zero goes_on, differs]

/-- Where a pass leads nowhere, the limit is used up or the term is left as it is. -/
theorem repeatPasses_of_pass (goes_on : w.evaluator.abortRequested = false)
    (nowhere : (w.pass t j).1 = none) (n : Nat) : (repeatPasses w n t j).1.1 = t := by
  cases n with
  | zero => rw [repeatPasses_zero goes_on]
  | succ n =>
    rw [repeatPasses_succ goes_on]
    rcases led : w.pass t j with ⟨_ | next, after⟩
    · rfl
    · simp [led] at nowhere

/-- Some number of passes comes to an end. -/
def Replacer.ComesToEnd (w : Replacer) (t : Term) (j : Journal) : Prop :=
  ∃ n, (repeatPasses w n t j).1.2 ≠ .exhausted

/-- With the one list of rules that the argument stands for, repeated passes come to an end. -/
def Rules.ComeToEnd (rules : Rules) (ev : Evaluator) (t : Term) (j : Journal) : Prop :=
  ∃ list, rules.list? = some list ∧ Replacer.ComesToEnd ⟨ev, .replaceRepeated, list⟩ t j

theorem repeatUntilSettled_eq (w : Replacer) (t : Term) (j : Journal) :
    repeatUntilSettled w t j =
      if w.evaluator.abortRequested then ((.symbol Term.abortedName, .aborted), j)
      else match w.pass t j with
        | (none, j) => ((t, .settled), j)
        | (some next, j) => repeatUntilSettled w next j := by
  rw [repeatUntilSettled, repeatM_eq_of_monadTail]
  cases w.evaluator.abortRequested with
  | true => rfl
  | false =>
    simp only [repeatM.body, bind, StateT.bind, Bool.false_eq_true, if_false]
    rcases w.pass t j with ⟨_ | next, j⟩ <;> rfl

/-- Without a limit there is the outcome of as many passes as it takes. -/
theorem repeatUntilSettled_of_ended {n : Nat} (ended : (repeatPasses w n t j).1.2 ≠ .exhausted) :
    repeatUntilSettled w t j = repeatPasses w n t j := by
  cases goes_on : w.evaluator.abortRequested with
  | true => rw [repeatUntilSettled_eq, if_pos goes_on, repeatPasses_aborted goes_on]
  | false =>
    induction n generalizing t j with
    | zero => simp [repeatPasses_zero goes_on] at ended
    | succ n ih =>
      rw [repeatPasses_succ goes_on] at ended ⊢
      rw [repeatUntilSettled_eq, if_neg (by simp [goes_on])]
      rcases led : w.pass t j with ⟨_ | next, after⟩
      · rfl
      · rw [led] at ended
        exact ih ended

theorem replaceRepeatedWith_fst (ev : Evaluator) (t : Term) (limit : Option Nat) (rules : List Rule)
    (j : Journal) : (replaceRepeatedWith ev t limit rules j).1 =
      (repeatUpTo ⟨ev, .replaceRepeated, rules⟩ limit t j).1.1 := by
  simp only [replaceRepeatedWith, bind, StateT.bind]
  rcases repeatUpTo ⟨ev, .replaceRepeated, rules⟩ limit t j with ⟨⟨result, ending⟩, j⟩
  cases ending <;> cases limit <;> rfl

end TermRewriting
