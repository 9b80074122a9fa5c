import TermRewriting.Proofs.Compile
import TermRewriting.Proofs.RuleTree
import TermRewriting.Replace

/-! Whether an operation fails. That is decided where its rules are read: the lists of rules in the
argument are gone through from left to right, and the first that cannot be read is to blame. What
the rules are applied to has no part in it. -/

namespace TermRewriting

namespace Rules

def isListOfLists (t : Term) : Bool :=
  t.isCall "List" && !t.args.isEmpty && t.args.all fun item => item.isCall "List"

mutual

/-- The lists of rules in a rules argument, from left to right and however deep. -/
def lists : Term → List Term
  | .app head args =>
    if isListOfLists (.app head args) then listsOfAll args else [.app head args]
  | t => [t]

def listsOfAll : List Term → List Term
  | [] => []
  | t :: ts => lists t ++ listsOfAll ts

end

/-- What is wrong with a rule, a list of rules or a dispatch. -/
def listFailure? (t : Term) : Option ReplacementError :=
  if t.isCall "Dispatch" then failure? (Dispatch.compile t)
  else if (RuleTree.itemsOf t).any fun item => item.isCall "List" || item.isCall "Dispatch" then
    some (.ruleMix t)
  else failure? (Rule.listOfTerms 0 (RuleTree.itemsOf t))

/-- What is wrong with the first list of rules that has something wrong with it. A dispatch was read
before. -/
def firstFailure? : Rules → Option ReplacementError
  | .term t => (lists t).findSome? listFailure?
  | .dispatch _ => none

end Rules

namespace RuleTree

open Rules (isListOfLists listFailure?)

variable (apply : List Rule → StateM Journal Term)

theorem failure?_run_ofExcept {f : α → RuleTree} {j : Journal}
    (runs : ∀ a, failure? (run apply (f a) j).1 = none) (read : Except ReplacementError α) :
    failure? (run apply (ofExcept f read) j).1 = failure? read := by
  cases read with
  | ok a => exact runs a
  | error e => rfl

theorem ofTerm_of_isListOfLists {t : Term} (nested : isListOfLists t = true) :
    ofTerm t = .each (ofTerms t.args) := by
  simp only [isListOfLists, Bool.and_eq_true, Bool.not_eq_true'] at nested
  obtain ⟨⟨isList, nonempty⟩, all⟩ := nested
  have notDispatch : t.isCall "Dispatch" = false := Term.isCall_eq_false isList (by decide)
  have items : itemsOf t = t.args := if_pos isList
  have any : (t.args.any fun item => item.isCall "List" || item.isCall "Dispatch") = true := by
    obtain ⟨first, rest, args⟩ := List.exists_cons_of_ne_nil (List.isEmpty_eq_false_iff.mp nonempty)
    have first := List.all_eq_true.mp all first (by simp [args])
    simp [args, first]
  rw [ofTerm_eq, items, if_neg (by simp [notDispatch]), if_pos any, if_pos all]

/-- Of an argument that is no list of lists nothing is applied before all of it is read. -/
theorem failure?_run_list {t : Term} (flat : isListOfLists t = false) (j : Journal) :
    failure? (run apply (ofTerm t) j).1 = listFailure? t := by
  rw [ofTerm_eq, listFailure?]
  by_cases isDispatch : t.isCall "Dispatch" = true
  · rw [if_pos isDispatch, if_pos isDispatch]
    exact failure?_run_ofExcept apply (fun _ => rfl) _
  rw [if_neg isDispatch, if_neg isDispatch]
  split
  · next any =>
    have mixed : ¬(itemsOf t).all (fun item => item.isCall "List") = true := by
      intro all
      by_cases isList : t.isCall "List" = true
      · obtain ⟨item, member, -⟩ := List.any_eq_true.mp any
        simp only [itemsOf, if_pos isList] at all member
        have nonempty : t.args.isEmpty = false := by simpa using List.ne_nil_of_mem member
        rw [isListOfLists, isList, nonempty, all] at flat
        cases flat
      · simp [itemsOf, isList] at all
    rw [if_neg mixed]
    rfl
  · exact failure?_run_ofExcept apply (fun _ => rfl) _

theorem failure?_runAll {args : List Term}
    (each : ∀ t ∈ args, ∀ j, failure? (run apply (ofTerm t) j).1 = (Rules.lists t).findSome? listFailure?)
    (j : Journal) :
    failure? (runAll apply (ofTerms args) j).1 = (Rules.listsOfAll args).findSome? listFailure? := by
  induction args generalizing j with
  | nil => rfl
  | cons t args ih =>
    have first := each t (by simp) j
    have later := ih (fun t member => each t (by simp [member])) (run apply (ofTerm t) j).2
    rw [ofTerms, runAll_cons, Rules.listsOfAll, List.findSome?_append, ← first, ← later]
    exact failure?_bind _ _ _ fun _ => failure?_map _ _

theorem failure?_run (t : Term) (j : Journal) :
    failure? (run apply (ofTerm t) j).1 = (Rules.lists t).findSome? listFailure? := by
  induction t using Term.induct generalizing j with
  | app head args _ ih =>
    cases nested : isListOfLists (.app head args) with
    | true =>
      rw [ofTerm_of_isListOfLists nested, run_each, failure?_map, Term.args, failure?_runAll apply ih,
        Rules.lists, if_pos nested]
    | false =>
      rw [failure?_run_list apply nested, Rules.lists, if_neg (by simp [nested])]
      simp
  | _ =>
    rw [failure?_run_list apply rfl, Rules.lists]
    · simp
    · simp

end RuleTree

theorem Rules.failure?_run (rules : Rules) (apply : List Rule → StateM Journal Term) (j : Journal) :
    failure? (rules.run apply j).1 = rules.firstFailure? := by
  cases rules with
  | term t => exact RuleTree.failure?_run apply t j
  | dispatch d => rfl

/-- Whether an operation fails, and how, is decided by its rules argument alone: it is what is wrong
with the first list of rules that cannot be read. There is a result if and only if there is no such
list, whatever the evaluator, the term, the levels and the limit are. -/
theorem failure_decided_by_rules (rules : Rules) :
    (∀ ev t levels heads j, (∀ l ∈ levels, ∃ spec, LevelSpec.ofTerm l = .ok spec) →
      failure? (replace ev t rules levels heads j).1 = rules.firstFailure?) ∧
    (∀ ev t j, failure? (replaceAll ev t rules j).1 = rules.firstFailure?) ∧
    (∀ ev t limit j, failure? (replaceList ev t rules limit j).1 = rules.firstFailure?) ∧
    ∀ ev t (limit : Nat) j,
      failure? (replaceRepeated ev t rules (some limit) j).1 = rules.firstFailure? := by
  refine ⟨fun ev t levels heads j valid => ?_, fun ev t j => rules.failure?_run _ j,
    fun ev t limit j => rules.failure?_run _ j, fun ev t limit j => rules.failure?_run _ j⟩
  obtain ⟨spec, read⟩ : ∃ spec, levels.elim (.ok .root) LevelSpec.ofTerm = .ok spec := by
    cases levels with
    | none => exact ⟨.root, rfl⟩
    | some l => exact valid l rfl
  rw [replace_eq, read]
  exact rules.failure?_run _ j

/-- A list of rule lists, the second of them again a list of rule lists. The symbol `x` is no rule. -/
def nestedRules : Term :=
  .list [.list [.call "Rule" [.symbol "a", .integer 1]],
    .list [.list [.call "Rule" [.symbol "b", .integer 2]], .list [.symbol "x"]]]

theorem failure_decided_by_nestedRules :
    (∀ l ∈ some (Term.integer 1), ∃ spec, LevelSpec.ofTerm l = .ok spec) ∧
      (Rules.term nestedRules).firstFailure?.map ReplacementError.message =
        some "x is not a valid replacement rule." ∧
      failure? (replace .bare (.symbol "b") (.term nestedRules) (some (.integer 1)) true {}).1 =
        (Rules.term nestedRules).firstFailure? := by
  have valid : ∀ l ∈ some (Term.integer 1), ∃ spec, LevelSpec.ofTerm l = .ok spec := by
    rintro l ⟨⟩
    exact ⟨_, rfl⟩
  refine ⟨valid, by decide +kernel, ?_⟩
  exact (failure_decided_by_rules (.term nestedRules)).1 .bare (.symbol "b") _ true {} valid

end TermRewriting
