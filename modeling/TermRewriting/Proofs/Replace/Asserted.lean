import TermRewriting.Proofs.Matching.Asserted
import TermRewriting.Proofs.Replace.Limit

/-! Rewriting with assertions. What a match leaves alone is looked up by index in the term that is
rewritten, and what is left of a limit is a difference. -/

namespace TermRewriting

variable {κ : Type}

namespace Rule

/-- Hands over the results. What is left alone has to be distinct positions of arguments. -/
def assertedResults (fault : Visit κ) (ev : Evaluator) (r : Rule) (t : Term) (whole : Bool)
    (k : Term → Visit κ) : Visit κ :=
  r.lhs.assertedVisit fault ev { whole } t .empty fun b rest =>
    if (rest.before ++ rest.after).Nodup then
      Visit.itemsAt fault t.args rest.before fun before =>
      Visit.itemsAt fault t.args rest.after fun after =>
      match r.result? ev t ⟨b, ⟨before, after⟩⟩ with
      | some result => k result
      | none => .proceed
    else fault

def assertedList (fault : Visit (Array Term)) (ev : Evaluator) (r : Rule) (t : Term)
    (limit : Option Nat) : StateM Journal (List Term) := fun j =>
  if limit = some 0 then ([], j) else
  let outcome := Visit.outcome (r.assertedResults fault ev t true) (limit.elim .all (.upTo · .limit)) j
  (outcome.seen.toList, outcome.journal)

variable {fault : Visit κ} {ev : Evaluator} {r : Rule} {t : Term}

theorem assertedResults_eq (whole : Bool) (k : Term → Visit κ) :
    r.assertedResults fault ev t whole k = r.visitResults ev t whole k := by
  rw [assertedResults, visitResults, Pattern.assertedVisit_eq]
  refine Pattern.visit_congr fun b rest among => ?_
  obtain ⟨left, perm, sublist⟩ := among.within
  have distinct : (rest.before ++ rest.after).Nodup :=
    perm.nodup_iff.mp (List.nodup_range.sublist sublist)
  have inRange (position : Nat) (member : position ∈ rest.before ++ rest.after) :
      position < t.args.length := List.mem_range.mp (among.within.subset member)
  rw [if_pos distinct, Visit.itemsAt_eq fun position member => inRange position (by simp [member]),
    Visit.itemsAt_eq fun position member => inRange position (by simp [member])]
  rfl

theorem assertedList_eq {fault : Visit (Array Term)} :
    r.assertedList fault ev t = r.applyList ev t := by
  have results : r.assertedResults fault ev t true = r.visitResults ev t true :=
    funext (assertedResults_eq true)
  funext limit j
  rw [assertedList, applyList, results]

theorem length_applyList_le (limit : Nat) (j : Journal) :
    (r.applyList ev t (some limit) j).1.length ≤ limit := by
  rw [applyList_some]
  exact List.length_take_le ..

end Rule

/-- Adds the results of each rule to those found before, within what these leave of the limit. -/
def assertedAllResults (fault : Visit (Array Term)) (failed : StateM Journal (List Term))
    (ev : Evaluator) (t : Term) (limit : Option Nat) :
    (out : List Term) → List Rule → StateM Journal (List Term)
  | out, [] => return out
  | out, r :: rs =>
    if limit.all (out.length ≤ ·) then do
      let budget := limit.map (· - out.length)
      if budget = some 0 then return out
      let found ← r.assertedList fault ev t budget
      assertedAllResults fault failed ev t limit (out ++ found.map ev.evaluate) rs
    else failed

variable {ev : Evaluator} {t : Term} {limit : Option Nat}

theorem assertedAllResults_eq {fault : Visit (Array Term)} {failed : StateM Journal (List Term)}
    {out : List Term} (within : limit.all (out.length ≤ ·) = true) (rules : List Rule) (j : Journal) :
    assertedAllResults fault failed ev t limit out rules j =
      let rest := allResults ev t (limit.map (· - out.length)) rules j
      (out ++ rest.1, rest.2) := by
  induction rules generalizing out j with
  | nil =>
    simp only [allResults_nil, List.append_nil]
    rfl
  | cons r rules ih =>
    rw [assertedAllResults, if_pos within]
    by_cases used : limit.map (· - out.length) = some 0
    · simp only [used, if_true, allResults_zero, List.append_nil]
      rfl
    · have after : limit.all ((out ++ (r.applyList ev t (limit.map (· - out.length)) j).1.map
          ev.evaluate).length ≤ ·) = true := by
        cases limit with
        | none => rfl
        | some limit =>
          have short : (r.applyList ev t (some (limit - out.length)) j).1.length ≤ limit - out.length :=
            Rule.length_applyList_le ..
          simp only [Option.all_some, decide_eq_true_eq] at within
          simp only [Option.all_some, Option.map_some, List.length_append, List.length_map,
            decide_eq_true_eq]
          omega
      rw [allResults_cons used]
      simp only [if_neg used, Rule.assertedList_eq]
      change assertedAllResults fault failed ev t limit (out ++ (r.applyList ev t
        (limit.map (· - out.length)) j).1.map ev.evaluate) rules (r.applyList ev t
        (limit.map (· - out.length)) j).2 = _
      rw [ih after]
      simp [Function.comp_def, Nat.sub_sub]

/-- Every assertion of matching and rewriting holds: whatever is put in the place of a failure, the
matches of any pattern, the results of any rule and the results of rules within a limit are those there
are without assertions. -/
theorem assertions_hold (ev : Evaluator) :
    (∀ (κ : Type) (fault : Visit κ) (p : Pattern) (c : Context) (t : Term) (b : Bindings)
        (k : MatchVisitor κ), p.assertedVisit fault ev c t b k = p.visit ev c t b k) ∧
    (∀ (κ : Type) (fault : Visit κ) (r : Rule) (t : Term) (whole : Bool) (k : Term → Visit κ),
        r.assertedResults fault ev t whole k = r.visitResults ev t whole k) ∧
    ∀ (fault : Visit (Array Term)) (failed : StateM Journal (List Term)) (t : Term)
        (limit : Option Nat) (rules : List Rule),
        assertedAllResults fault failed ev t limit [] rules = allResults ev t limit rules := by
  refine ⟨fun κ fault p c t b k => by rw [Pattern.assertedVisit_eq],
    fun κ fault r t whole k => Rule.assertedResults_eq whole k, fun fault failed t limit rules => ?_⟩
  funext j
  have none_found : limit.all (([] : List Term).length ≤ ·) = true := by cases limit <;> simp
  rw [assertedAllResults_eq none_found]
  simp only [List.length_nil, Nat.sub_zero, Option.map_id', List.nil_append]
  rfl

end TermRewriting
