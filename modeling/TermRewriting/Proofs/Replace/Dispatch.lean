import TermRewriting.Proofs.Compile
import TermRewriting.Proofs.Replace.Journal

/-! A dispatch and the rules it was made from. Both ways of reading rules, as a dispatch and as a
rules argument, come to the same list of rules wherever both succeed, and then every operation has
the same result with either. -/

namespace TermRewriting

open Pattern (bind_eq_ok pure_eq_ok)

theorem exists_error_iff {ε α : Type} {x : Except ε α} : (∃ e, x = .error e) ↔ ¬∃ a, x = .ok a := by
  cases x <;> simp

/-- No operation tells the two apart if nothing is inherited yet. Repetition without a limit comes to
an end with either or with neither. -/
structure Rules.Interchangeable (rules rules' : Rules) : Prop where
  atLevels : ∀ (ev : Evaluator) (t : Term) (levels : Option Term) (heads : Bool) (j j' : Journal),
    (replace ev t rules levels heads j.forget).1 = (replace ev t rules' levels heads j'.forget).1
  everywhere : ∀ (ev : Evaluator) (t : Term) (j j' : Journal),
    (replaceAll ev t rules j.forget).1 = (replaceAll ev t rules' j'.forget).1
  comeToEnd : ∀ (ev : Evaluator) (t : Term) (j j' : Journal),
    rules.ComeToEnd ev t j.forget ↔ rules'.ComeToEnd ev t j'.forget
  repeatedly : ∀ (ev : Evaluator) (t : Term) (limit : Option Nat) (j j' : Journal),
    (limit = none → rules.ComeToEnd ev t j.forget) →
      (replaceRepeated ev t rules limit j.forget).1 = (replaceRepeated ev t rules' limit j'.forget).1
  inAllWays : ∀ (ev : Evaluator) (t : Term) (limit : Option Nat) (j j' : Journal),
    (replaceList ev t rules limit j.forget).1 = (replaceList ev t rules' limit j'.forget).1

section

variable {rules rules' : Rules} {list : List Rule} (one : rules.list? = some list)
  (one' : rules'.list? = some list)
include one

theorem Rules.comeToEnd_iff {ev : Evaluator} {t : Term} {j : Journal} :
    rules.ComeToEnd ev t j ↔ Replacer.ComesToEnd ⟨ev, .replaceRepeated, list⟩ t j := by
  simp [ComeToEnd, one]

include one'

theorem Rules.run_forget {apply : List Rule → StateM Journal Term}
    (corresponds : Journal.Corresponds Eq (apply list) (apply list)) (j j' : Journal) :
    (rules.run apply j.forget).1 = (rules'.run apply j'.forget).1 := by
  obtain ⟨start, nothing, ran⟩ := Rules.exists_run one apply j.forget
  obtain ⟨start', nothing', ran'⟩ := Rules.exists_run one' apply j'.forget
  have same := (corresponds start start' ((nothing rfl).trans (nothing' rfl).symm)).1
  rw [ran, ran', same]

theorem Rules.replaceRepeated_forget (ev : Evaluator) (t : Term) (limit : Option Nat) (j j' : Journal)
    (ends : limit = none → rules.ComeToEnd ev t j.forget) :
    (replaceRepeated ev t rules limit j.forget).1 =
      (replaceRepeated ev t rules' limit j'.forget).1 := by
  have replacer := Replacer.corresponds_self ⟨ev, .replaceRepeated, list⟩
  obtain ⟨start, nothing, ran⟩ := Rules.exists_run one (replaceRepeatedWith ev t limit) j.forget
  obtain ⟨start', nothing', ran'⟩ := Rules.exists_run one' (replaceRepeatedWith ev t limit) j'.forget
  have ends (unlimited : limit = none) : Replacer.ComesToEnd ⟨ev, .replaceRepeated, list⟩ t start :=
    (replacer.comesToEnd (nothing rfl).symm).mp ((comeToEnd_iff one).mp (ends unlimited))
  have same := replacer.repeatUpTo limit ((nothing rfl).trans (nothing' rfl).symm) ends
  rw [replaceRepeated, replaceRepeated, ran, ran', replaceRepeatedWith_fst, replaceRepeatedWith_fst, same]

/-- Arguments that stand for the same rules are interchangeable. -/
theorem Rules.interchangeable_of_list : rules.Interchangeable rules' where
  atLevels ev t levels heads j j' := by
    rw [replace_eq, replace_eq]
    cases levels.elim (.ok .root) LevelSpec.ofTerm with
    | error e => rfl
    | ok spec =>
      have respect := Rule.allRespect_eq ev list
      exact run_forget one one' (corresponds_replaceWith respect t spec heads) j j'
  everywhere ev t := run_forget one one' (corresponds_replaceAllWith (Rule.allRespect_eq ev list) t)
  comeToEnd ev t j j' := by
    rw [comeToEnd_iff one, comeToEnd_iff one']
    exact (Replacer.corresponds_self _).comesToEnd rfl
  repeatedly := replaceRepeated_forget one one'
  inAllWays ev t limit :=
    run_forget one one' (corresponds_replaceListWith (Rule.allRespect_eq ev list) t limit)

end

namespace Rule

theorem isRule_of_ofTerm {cell : Position} {t : Term} {r : Rule} (h : ofTerm cell t = .ok r) :
    isRule t = true := by
  by_contra other
  simp [ofTerm, other] at h

theorem not_isCall {t : Term} {name : String} (rule : isRule t = true)
    (other : "Rule" ≠ name ∧ "RuleDelayed" ≠ name) : ¬t.isCall name = true := by
  rw [isRule, Bool.or_eq_true] at rule
  rcases rule with rule | delayed
  · simp [Term.isCall_eq_false rule other.1]
  · simp [Term.isCall_eq_false delayed other.2]

theorem exists_ofTerm {cell : Position} {t : Term} {r : Rule} (h : ofTerm cell t = .ok r)
    (cell' : Position) : ∃ r, ofTerm cell' t = .ok r := by
  have rule := isRule_of_ofTerm h
  simp only [ofTerm, if_pos rule] at h ⊢
  split at h
  · obtain ⟨p, read, -⟩ := make_eq_ok_iff.mp h
    obtain ⟨p', read'⟩ := Pattern.exists_compileAt read cell'
    exact ⟨_, make_eq_ok_iff.mpr ⟨p', read', rfl⟩⟩
  · cases h

theorem exists_listOfTerms_iff {number : Nat} {ts : List Term} :
    (∃ rules, listOfTerms number ts = .ok rules) ↔ ∀ t ∈ ts, ∃ r, ofTerm [] t = .ok r := by
  induction ts generalizing number with
  | nil => exact ⟨fun _ => by simp, fun _ => ⟨[], rfl⟩⟩
  | cons t ts ih =>
    simp only [listOfTerms, bind_eq_ok, pure_eq_ok, List.forall_mem_cons]
    rw [← @ih (number + 1)]
    constructor
    · rintro ⟨_, r, first, rs, later, -⟩
      exact ⟨exists_ofTerm first [], rs, later⟩
    · rintro ⟨⟨r, first⟩, rs, later⟩
      obtain ⟨r', first⟩ := exists_ofTerm first [number]
      exact ⟨_, r', first, rs, later, rfl⟩

theorem isRule_of_listOfTerms {number : Nat} {ts : List Term} {rules : List Rule}
    (h : listOfTerms number ts = .ok rules) : ∀ t ∈ ts, isRule t = true := fun t member =>
  have ⟨_, read⟩ := exists_listOfTerms_iff.mp ⟨rules, h⟩ t member
  isRule_of_ofTerm read

end Rule

namespace RuleTree

theorem ofTerm_of_rules {t : Term} (rules : ∀ item ∈ itemsOf t, Rule.isRule item = true) :
    ofTerm t = ofExcept .rules (Rule.listOfTerms 0 (itemsOf t)) := by
  have notDispatch : ¬t.isCall "Dispatch" = true := by
    intro isDispatch
    have items : itemsOf t = [t] := if_neg (by simp [Term.isCall_eq_false isDispatch])
    exact Rule.not_isCall (rules t (by simp [items])) (by decide) isDispatch
  have noLists : ¬((itemsOf t).any fun item => item.isCall "List" || item.isCall "Dispatch") = true := by
    simp only [List.any_eq_true, Bool.or_eq_true, not_exists, not_and, not_or]
    exact fun item member =>
      ⟨Rule.not_isCall (rules item member) (by decide), Rule.not_isCall (rules item member) (by decide)⟩
  rw [ofTerm_eq, if_neg notDispatch, if_neg noLists]

end RuleTree

namespace Dispatch

/-- A dispatch reads the rules just as an argument that is a list of them does. -/
theorem readRules_eq_ok_iff {source : Term} {number : Nat} {ts : List Term} {rules : List Rule} :
    readRules source number ts = .ok rules ↔ Rule.listOfTerms number ts = .ok rules := by
  induction ts generalizing number rules with
  | nil => rfl
  | cons t ts ih =>
    by_cases rule : Rule.isRule t = true
    · have read : readRules source number (t :: ts) = (do
          let r ← Rule.ofTerm [number] t
          return r :: (← readRules source (number + 1) ts)) := by simp [readRules, rule]
      simp only [read, Rule.listOfTerms, bind_eq_ok, pure_eq_ok, ih]
    · simp [readRules, Rule.listOfTerms, Rule.ofTerm, rule, bind, Except.bind, throw, throwThe,
        MonadExceptOf.throw]

theorem leaves_eq (t : Term) :
    leaves t =
      if t.isCall "List" then leavesOfAll t.args
      else if t.isCall "Dispatch" then
        match t.args with
        | [inner] => leaves inner
        | _ => [t]
      else [t] := by
  cases t with
  | app head args =>
    match args with
    | [] | [_] | _ :: _ :: _ =>
      simp only [leaves]
      rfl
  | _ => rfl

theorem leaves_unwrap (t : Term) : leaves (unwrap t) = leaves t := by
  by_cases isDispatch : t.isCall "Dispatch" = true
  · have notList : t.isCall "List" = false := Term.isCall_eq_false isDispatch (by decide)
    rcases args : t.args with _ | ⟨inner, _ | ⟨second, rest⟩⟩
    all_goals simp [unwrap, leaves_eq t, isDispatch, notList, args]
  · rw [unwrap, if_neg isDispatch]

theorem leaves_list (ts : List Term) : leaves (.list ts) = leavesOfAll ts := leaves_eq (.list ts)

theorem leaves_of_isRule {t : Term} (rule : Rule.isRule t = true) : leaves t = [t] := by
  rw [leaves_eq, if_neg (Rule.not_isCall rule (by decide)), if_neg (Rule.not_isCall rule (by decide))]

theorem leavesOfAll_of_rules {ts : List Term} (rules : ∀ t ∈ ts, Rule.isRule t = true) :
    leavesOfAll ts = ts := by
  induction ts with
  | nil => rfl
  | cons t ts ih =>
    rw [leavesOfAll, leaves_of_isRule (rules t (by simp)), ih fun t member => rules t (by simp [member])]
    rfl

/-- The list that a dispatch keeps for the term it is made from. -/
def sourceOf (t : Term) : Term := if (unwrap t).isCall "List" then unwrap t else .list [unwrap t]

theorem compile_eq_ok_iff {t : Term} {d : Dispatch} :
    compile t = .ok d ↔ Rule.listOfTerms 0 (leaves t) = .ok d.rules ∧ sourceOf t = d.source := by
  rw [← @readRules_eq_ok_iff (unwrap t), compile, leaves_unwrap]
  cases readRules (unwrap t) 0 (leaves t) with
  | error e => exact ⟨nofun, nofun⟩
  | ok rules =>
    simp only [Except.map, Except.ok.injEq, sourceOf]
    exact ⟨fun made => made ▸ ⟨rfl, rfl⟩, fun ⟨rules, source⟩ => rules ▸ source ▸ rfl⟩

theorem leaves_sourceOf (t : Term) : leaves (sourceOf t) = leaves t := by
  rw [sourceOf, ← leaves_unwrap t]
  split
  · rfl
  · rw [leaves_list, leavesOfAll, leavesOfAll, List.append_nil]

theorem list?_toTerm {t : Term} {d : Dispatch} (made : compile t = .ok d) :
    (Rules.term d.toTerm).list? = some d.rules := by
  obtain ⟨read, source⟩ := compile_eq_ok_iff.mp made
  have leaves : leaves d.toTerm = leaves t := by
    rw [← leaves_unwrap, ← leaves_sourceOf t, source]
    rfl
  have again : compile d.toTerm = .ok ⟨sourceOf d.toTerm, d.rules⟩ :=
    compile_eq_ok_iff.mpr ⟨leaves ▸ read, rfl⟩
  have isDispatch : d.toTerm.isCall "Dispatch" = true := rfl
  rw [Rules.list?, RuleTree.ofTerm_eq, if_pos isDispatch, again]
  rfl

/-- An argument whose items are the leaves of a dispatch has the rules of the dispatch. -/
theorem list?_of_items {t u : Term} {d : Dispatch} (made : compile t = .ok d)
    (items : RuleTree.itemsOf u = leaves t) : (Rules.term u).list? = some d.rules := by
  have read := (compile_eq_ok_iff.mp made).1
  have rules := Rule.isRule_of_listOfTerms read
  rw [Rules.list?, RuleTree.ofTerm_of_rules (items ▸ rules), items, read]
  rfl

theorem compile_eq_error_iff {t : Term} :
    (∃ e, compile t = .error e) ↔
      ∃ leaf ∈ leaves t, Rule.isRule leaf = false ∨ ∃ e, Rule.ofTerm [] leaf = .error e := by
  have made : (∃ d, compile t = .ok d) ↔ ∃ rules, Rule.listOfTerms 0 (leaves t) = .ok rules :=
    ⟨fun ⟨_, made⟩ => ⟨_, (compile_eq_ok_iff.mp made).1⟩,
      fun ⟨rules, read⟩ => ⟨⟨sourceOf t, rules⟩, compile_eq_ok_iff.mpr ⟨read, rfl⟩⟩⟩
  rw [exists_error_iff, made, Rule.exists_listOfTerms_iff]
  simp only [not_forall, ← exists_error_iff, exists_prop]
  refine exists_congr fun leaf => and_congr_right fun _ => ⟨.inr, ?_⟩
  rintro (other | failed)
  · exact ⟨.invalidRule leaf, by simp [Rule.ofTerm, other]⟩
  · exact failed

end Dispatch

open Dispatch (leaves)

/-- A dispatch is interchangeable with the term it stands for, with the list of the rules in the term
it was made from, and with that term if it is a rule or a list of rules only. No dispatch can be made
if and only if one of the leaves is no rule or cannot be read as one. -/
theorem dispatch_interchangeable (t : Term) :
    (∀ d, Dispatch.compile t = .ok d →
      (Rules.dispatch d).Interchangeable (.term d.toTerm) ∧
      (Rules.dispatch d).Interchangeable (.term (.list (leaves t))) ∧
      ((Rule.isRule t = true ∨ ∃ ts, t = .list ts ∧ ∀ u ∈ ts, Rule.isRule u = true) →
        (Rules.dispatch d).Interchangeable (.term t))) ∧
    ((∃ e, Dispatch.compile t = .error e) ↔
      ∃ leaf ∈ leaves t, Rule.isRule leaf = false ∨ ∃ e, Rule.ofTerm [] leaf = .error e) := by
  refine ⟨fun d made => ⟨?_, ?_, fun plain => ?_⟩, Dispatch.compile_eq_error_iff⟩
  · exact Rules.interchangeable_of_list rfl (Dispatch.list?_toTerm made)
  · exact Rules.interchangeable_of_list rfl (Dispatch.list?_of_items made rfl)
  · refine Rules.interchangeable_of_list rfl (Dispatch.list?_of_items made ?_)
    rcases plain with rule | ⟨ts, rfl, rules⟩
    · rw [Dispatch.leaves_of_isRule rule, RuleTree.itemsOf, if_neg (Rule.not_isCall rule (by decide))]
    · rw [Dispatch.leaves_list, Dispatch.leavesOfAll_of_rules rules]
      rfl

def scattered : Term :=
  .list [.call "Rule" [.symbol "a", .integer 1],
    .list [.call "Dispatch" [.call "RuleDelayed" [.symbol "b", .integer 2]], .list []]]

def gathered : Term :=
  .list [.call "Rule" [.symbol "a", .integer 1], .call "RuleDelayed" [.symbol "b", .integer 2]]

theorem dispatch_interchangeable_scattered :
    (∃ d, Dispatch.compile scattered = .ok d ∧ d.rules.length = 2 ∧
      (Rules.dispatch d).Interchangeable (.term d.toTerm) ∧
      (Rules.dispatch d).Interchangeable (.term gathered)) ∧
    ∃ d, Dispatch.compile gathered = .ok d ∧ (Rules.dispatch d).Interchangeable (.term gathered) := by
  have made : Dispatch.compile scattered = .ok ⟨scattered, _⟩ := rfl
  have made' : Dispatch.compile gathered = .ok ⟨gathered, _⟩ := rfl
  obtain ⟨back, leaves, -⟩ := (dispatch_interchangeable scattered).1 _ made
  obtain ⟨-, -, plain⟩ := (dispatch_interchangeable gathered).1 _ made'
  exact ⟨⟨_, made, rfl, back, leaves⟩, _, made', plain (.inr ⟨_, rfl, by decide⟩)⟩

end TermRewriting
