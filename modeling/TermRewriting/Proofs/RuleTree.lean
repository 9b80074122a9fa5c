import TermRewriting.RuleTree

/-! Running an operation with a rules argument. An argument that stands for one list of rules comes
to what the operation does with that list; for a list of arguments the results come one by one. -/

namespace TermRewriting

namespace RuleTree

def itemsOf (t : Term) : List Term := if t.isCall "List" then t.args else [t]

theorem ofTerm_eq (t : Term) :
    ofTerm t =
      if t.isCall "Dispatch" then ofExcept .dispatch (Dispatch.compile t)
      else if (itemsOf t).any fun item => item.isCall "List" || item.isCall "Dispatch" then
        if (itemsOf t).all fun item => item.isCall "List" then .each (ofTerms (itemsOf t))
        else .invalid (.ruleMix t)
      else ofExcept .rules (Rule.listOfTerms 0 (itemsOf t)) := by
  cases t with
  | app head args =>
    rw [ofTerm]
    by_cases isDispatch : head.isSymbol "Dispatch" = true
    · simp [isDispatch, Term.isCall]
    by_cases isList : head.isSymbol "List" = true
    · simp [isDispatch, isList, itemsOf, Term.isCall, Term.args]
    · simp [isDispatch, isList, itemsOf, Term.isCall]
  | _ => rfl

@[elab_as_elim]
theorem induct {P : RuleTree → Prop} (rules : ∀ list, P (.rules list)) (dispatch : ∀ d, P (.dispatch d))
    (each : ∀ branches, (∀ b ∈ branches, P b) → P (.each branches)) (invalid : ∀ e, P (.invalid e))
    (tree : RuleTree) : P tree :=
  @RuleTree.rec P (fun branches => ∀ b ∈ branches, P b) rules dispatch each invalid (by simp)
    (fun _ _ first rest => by simp only [List.mem_cons, forall_eq_or_imp]; exact ⟨first, rest⟩) tree

variable (apply : List Rule → StateM Journal Term)

theorem run_rules (list : List Rule) (j : Journal) :
    (run apply (.rules list) j).1 = .ok (apply list j.forget).1 := rfl

theorem run_dispatch (d : Dispatch) (j : Journal) :
    (run apply (.dispatch d) j).1 =
      .ok (apply d.rules (j.forget.note (.compiledDispatch d.rules.length))).1 := rfl

theorem run_each (branches : List RuleTree) (j : Journal) :
    (run apply (.each branches) j).1 = (runAll apply branches j).1.map Term.list := by
  simp only [run, bind, ExceptT.bind, ExceptT.mk, StateT.bind, ExceptT.bindCont, pure, ExceptT.pure, Id]
  rcases runAll apply branches j with ⟨_ | ts, j⟩ <;> rfl

theorem runAll_cons (b : RuleTree) (bs : List RuleTree) (j : Journal) :
    (runAll apply (b :: bs) j).1 =
      (run apply b j).1.bind fun t => (runAll apply bs (run apply b j).2).1.map (t :: ·) := by
  simp only [runAll, bind, ExceptT.bind, ExceptT.mk, StateT.bind]
  rcases run apply b j with ⟨_ | t, j⟩
  · rfl
  · simp only [ExceptT.bindCont, bind, StateT.bind]
    rcases runAll apply bs j with ⟨_ | ts, j⟩ <;> rfl

/-- The rules, if there is one list of them and not a list of lists. -/
def list? : RuleTree → Option (List Rule)
  | .rules list => some list
  | .dispatch d => some d.rules
  | .each _ | .invalid _ => none

theorem exists_run {tree : RuleTree} {list : List Rule} (one : tree.list? = some list) (j : Journal) :
    ∃ start : Journal, start.inherited = [] ∧ (run apply tree j).1 = .ok (apply list start).1 := by
  cases tree with
  | rules list' =>
    obtain rfl := Option.some.inj one
    exact ⟨j.forget, rfl, run_rules apply _ j⟩
  | dispatch d =>
    obtain rfl := Option.some.inj one
    exact ⟨_, rfl, run_dispatch apply d j⟩
  | each branches | invalid e => cases one

end RuleTree

namespace Rules

/-- The rules that the argument stands for, if that is one list. -/
def list? : Rules → Option (List Rule)
  | .term t => (RuleTree.ofTerm t).list?
  | .dispatch d => some d.rules

/-- With one list of rules an operation does what it does with that list. It starts from what a
dispatch has inherited, or from nothing inherited. -/
theorem exists_run {rules : Rules} {list : List Rule} (one : rules.list? = some list)
    (apply : List Rule → StateM Journal Term) (j : Journal) :
    ∃ start : Journal, (j.inherited = [] → start.inherited = []) ∧
      (rules.run apply j).1 = .ok (apply list start).1 := by
  cases rules with
  | dispatch d =>
    obtain rfl := Option.some.inj one
    exact ⟨j, id, rfl⟩
  | term t =>
    obtain ⟨start, nothing, ran⟩ := RuleTree.exists_run apply one j
    exact ⟨start, fun _ => nothing, ran⟩

end Rules

end TermRewriting
