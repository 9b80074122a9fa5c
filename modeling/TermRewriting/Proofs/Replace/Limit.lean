import TermRewriting.Proofs.Replace.Journal

/-! Replacement in all ways, up to a limit. Each rule is given what the rules before it have left of
the limit. That cuts the list of all results off at one place and changes nothing before it. -/

namespace TermRewriting

namespace Search

variable {α : Type}

/-- With a limit the first answers are seen. A limit that is not reached also leaves the same
journal, which is what the next search starts from. -/
theorem runFrom_upTo (s : Search α) (reason : Stop) (limit : Nat) (seen : Array α) (j : Journal)
    (below : seen.size < limit) :
    (s.runFrom (.upTo limit reason) seen j).seen =
        seen ++ ((s.answers j).1.take (limit - seen.size)).toArray ∧
      (seen.size + (s.answers j).1.length < limit →
        (s.runFrom (.upTo limit reason) seen j).journal = (s.answers j).2) := by
  induction s generalizing seen j with
  | done => simp [runFrom, answers]
  | found a next ih =>
    have room : limit - seen.size = limit - (seen.push a).size + 1 := by
      rw [Array.size_push]
      omega
    by_cases reached : limit ≤ (seen.push a).size
    · have last : limit - (seen.push a).size = 0 := by omega
      rw [Array.size_push] at reached
      refine ⟨by simp [runFrom, answers, Strategy.upTo, reached, room], fun within => ?_⟩
      simp only [answers, List.length_cons] at within
      omega
    · have goes_on : Strategy.upTo limit reason (seen.push a) = none := if_neg reached
      obtain ⟨seen_eq, journal_eq⟩ := ih () (seen.push a) j (by omega)
      simp only [runFrom, goes_on, answers]
      refine ⟨by simp [seen_eq, room], fun within => journal_eq ?_⟩
      simp only [List.length_cons, Array.size_push] at within ⊢
      omega
  | note n next ih => exact ih () seen (j.note n) below
  | inherit p declared next ih => exact ih _ seen _ below

theorem collect_some (s : Search α) (limit : Nat) (j : Journal) :
    (s.collect (some limit) j).1 = (s.answers j).1.take limit := by
  cases limit with
  | zero => simp [collect]
  | succ limit =>
    have seen := (s.runFrom_upTo .limit (limit + 1) #[] j (by simp)).1
    simp [collect, run, seen]

theorem collect_of_length_lt {s : Search α} {limit : Nat} {j : Journal}
    (h : (s.answers j).1.length < limit) : s.collect (some limit) j = s.answers j := by
  have positive : 0 < limit := Nat.lt_of_le_of_lt (Nat.zero_le _) h
  have unreached : ¬ limit = 0 := by omega
  obtain ⟨seen, journal⟩ := s.runFrom_upTo .limit limit #[] j (by simpa using positive)
  have journal := journal (by simpa using h)
  have all : (s.answers j).1.take limit = (s.answers j).1 := List.take_of_length_le (Nat.le_of_lt h)
  simp [collect, run, unreached, seen, journal, all]

end Search

namespace Rule

variable {ev : Evaluator} {r : Rule} {t : Term}

theorem applyList_some (limit : Nat) (j : Journal) :
    (r.applyList ev t (some limit) j).1 = (r.applyList ev t none j).1.take limit := by
  simp only [applyList_eq, Search.collect_some, Search.collect_none]

theorem applyList_of_length_lt {limit : Nat} {j : Journal}
    (h : (r.applyList ev t none j).1.length < limit) :
    r.applyList ev t (some limit) j = r.applyList ev t none j := by
  simp only [applyList_eq, Search.collect_none] at h ⊢
  exact Search.collect_of_length_lt h

end Rule

section

variable {ev : Evaluator} {t : Term}

theorem replaceListWith_fst (limit : Option Nat) (rules : List Rule) (j : Journal) :
    (replaceListWith ev t limit rules j).1 = .list (allResults ev t limit rules j).1 := rfl

theorem allResults_nil (limit : Option Nat) (j : Journal) : allResults ev t limit [] j = ([], j) := rfl

theorem allResults_zero (rules : List Rule) (j : Journal) :
    allResults ev t (some 0) rules j = ([], j) := by
  cases rules <;> rfl

theorem allResults_cons {limit : Option Nat} (unused : limit ≠ some 0) (r : Rule) (rules : List Rule)
    (j : Journal) :
    allResults ev t limit (r :: rules) j =
      let found := r.applyList ev t limit j
      let rest := allResults ev t (limit.map (· - found.1.length)) rules found.2
      (found.1.map ev.evaluate ++ rest.1, rest.2) := by
  rw [allResults, if_neg unused]
  rfl

theorem allResults_some (rules : List Rule) (limit : Nat) (j : Journal) :
    (allResults ev t (some limit) rules j).1 = (allResults ev t none rules j).1.take limit := by
  induction rules generalizing limit j with
  | nil => simp [allResults_nil]
  | cons r rules ih =>
    by_cases used : limit = 0
    · rw [used, allResults_zero, List.take_zero]
    rw [allResults_cons (by simpa using used), allResults_cons (by simp)]
    by_cases within : (r.applyList ev t none j).1.length < limit
    · have whole : ((r.applyList ev t none j).1.map ev.evaluate).length ≤ limit := by
        simpa using Nat.le_of_lt within
      simp only [Rule.applyList_of_length_lt within, Option.map_some, Option.map_none, ih,
        List.take_append, List.take_of_length_le whole, List.length_map]
    · have reached : limit ≤ ((r.applyList ev t none j).1.map ev.evaluate).length := by
        simpa using Nat.le_of_not_lt within
      have used : limit - (r.applyList ev t (some limit) j).1.length = 0 := by
        rw [Rule.applyList_some, List.length_take]
        omega
      simp only [Option.map_some, used, allResults_zero, List.append_nil]
      rw [Rule.applyList_some, List.take_append_of_le_length reached, List.map_take]

theorem length_allResults_le (rules : List Rule) (limit : Nat) (j : Journal) :
    (allResults ev t (some limit) rules j).1.length ≤ limit := by
  rw [allResults_some]
  exact List.length_take_le ..

/-- After some of the rules, the others are left with what these have not used of the limit. -/
theorem allResults_append (front back : List Rule) (limit : Nat) (j : Journal) :
    allResults ev t (some limit) (front ++ back) j =
      let found := allResults ev t (some limit) front j
      let rest := allResults ev t (some (limit - found.1.length)) back found.2
      (found.1 ++ rest.1, rest.2) := by
  induction front generalizing limit j with
  | nil => rfl
  | cons r front ih =>
    by_cases used : limit = 0
    · simp [used, allResults_zero]
    rw [List.cons_append, allResults_cons (by simpa using used), allResults_cons (by simpa using used)]
    simp only [Option.map_some, ih, List.length_append, List.length_map, Nat.sub_sub, List.append_assoc]

end

namespace RuleTree

mutual

def keepFirst (limit : Nat) : RuleTree → Term → Term
  | .rules _, results | .dispatch _, results => .list (results.args.take limit)
  | .each branches, results => .list (keepFirstOfAll limit branches results.args)
  | .invalid _, results => results

def keepFirstOfAll (limit : Nat) : List RuleTree → List Term → List Term
  | b :: bs, t :: ts => keepFirst limit b t :: keepFirstOfAll limit bs ts
  | _, _ => []

end

variable {ev : Evaluator} {t : Term}

theorem runAll_some {limit : Nat} {branches : List RuleTree}
    (each : ∀ b ∈ branches, ∀ j j', (run (replaceListWith ev t (some limit)) b j).1 =
      (run (replaceListWith ev t none) b j').1.map (keepFirst limit b)) (j j' : Journal) :
    (runAll (replaceListWith ev t (some limit)) branches j).1 =
      (runAll (replaceListWith ev t none) branches j').1.map (keepFirstOfAll limit branches) := by
  induction branches generalizing j j' with
  | nil => rfl
  | cons b bs ih =>
    have first := each b (by simp) j j'
    have later := ih (fun b member => each b (by simp [member]))
      (run (replaceListWith ev t (some limit)) b j).2 (run (replaceListWith ev t none) b j').2
    rw [runAll_cons, runAll_cons, first, later]
    cases (run (replaceListWith ev t none) b j').1 with
    | error e => rfl
    | ok results =>
      simp only [Except.map, Except.bind]
      cases (runAll (replaceListWith ev t none) bs (run (replaceListWith ev t none) b j').2).1 <;> rfl

/-- Whatever the journal is, since no list of rules has inherited anything yet. -/
theorem run_some (limit : Nat) (tree : RuleTree) (j j' : Journal) :
    (run (replaceListWith ev t (some limit)) tree j).1 =
      (run (replaceListWith ev t none) tree j').1.map (keepFirst limit tree) := by
  induction tree using RuleTree.induct generalizing j j' with
  | rules list =>
    have same := (corresponds_allResults (Rule.allRespect_eq ev list) t none j.forget j'.forget rfl).1
    rw [run_rules, run_rules, replaceListWith_fst, replaceListWith_fst, allResults_some, same]
    rfl
  | dispatch d =>
    let start (j : Journal) := j.forget.note (.compiledDispatch d.rules.length)
    have same := (corresponds_allResults (Rule.allRespect_eq ev d.rules) t none (start j) (start j') rfl).1
    rw [run_dispatch, run_dispatch, replaceListWith_fst, replaceListWith_fst, allResults_some, same]
    rfl
  | each branches ih =>
    rw [run_each, run_each, runAll_some ih j j']
    cases (runAll (replaceListWith ev t none) branches j').1 <;> rfl
  | invalid e => rfl

end RuleTree

theorem replaceList_rule {ev : Evaluator} {t lhs rhs : Term} {r : Rule}
    (made : Rule.make [0] lhs rhs false = .ok r) (limit : Option Nat) (j : Journal) :
    (replaceList ev t (.term (.call "Rule" [lhs, rhs])) limit j).1 =
      .ok (.list (allResults ev t limit [r] j.forget).1) := by
  have rules : RuleTree.ofTerm (.call "Rule" [lhs, rhs]) = .rules [r] := by
    have read : Rule.listOfTerms 0 [.call "Rule" [lhs, rhs]] = .ok [r] := by
      rw [Rule.listOfTerms, show Rule.ofTerm [0] (.call "Rule" [lhs, rhs]) = .ok r from made]
      rfl
    change RuleTree.ofExcept .rules (Rule.listOfTerms 0 [.call "Rule" [lhs, rhs]]) = _
    rw [read]
    rfl
  rw [replaceList, Rules.run, rules, RuleTree.run_rules, replaceListWith_fst]

def Rules.keepFirst (limit : Nat) : Rules → Term → Term
  | .term rules, results => (RuleTree.ofTerm rules).keepFirst limit results
  | .dispatch _, results => .list (results.args.take limit)

/-- A limit makes no replacement fail and none succeed. Of the results there are without a limit it
keeps the first, for each list of rules apart. No rule is left with less than nothing of the limit:
what the rules before it have found, it has room for. -/
theorem replaceList_some (ev : Evaluator) (t : Term) (rules : Rules) (limit : Nat) (j : Journal) :
    (replaceList ev t rules (some limit) j).1 =
        (replaceList ev t rules none j).1.map (rules.keepFirst limit) ∧
      ∀ front back j,
        (allResults ev t (some limit) front j).1.length ≤ limit ∧
        allResults ev t (some limit) (front ++ back) j =
          let found := allResults ev t (some limit) front j
          let rest := allResults ev t (some (limit - found.1.length)) back found.2
          (found.1 ++ rest.1, rest.2) := by
  refine ⟨?_, fun front back j =>
    ⟨length_allResults_le front limit j, allResults_append front back limit j⟩⟩
  cases rules with
  | term rules => exact RuleTree.run_some limit (.ofTerm rules) j j
  | dispatch d =>
    have run (limit : Option Nat) : (replaceList ev t (.dispatch d) limit j).1 =
        .ok (.list (allResults ev t limit d.rules j).1) := rfl
    rw [run, run, allResults_some]
    rfl

end TermRewriting
