import TermRewriting.Proofs.Matching.Visit

/-! A visitor with a strategy runs over one fixed list of matches, whatever the strategy is: it sees
the matches that a visitor sees who never stops, in the same order, up to the first one at which its
strategy stops. -/

namespace TermRewriting

/-- An outcome of following the strategy through the items of a list, one at a time. -/
structure Strategy.RunsOver (strategy : Strategy α) (items : List α) (o : Outcome α) : Prop where
  seen_prefix : o.seen.toList <+: items
  goes_on : ∀ n, 0 < n → n < o.seen.size → strategy (items.take n).toArray = none
  stop_iff : ∀ reason, o.stop = some reason ↔ 0 < o.seen.size ∧ strategy o.seen = some reason
  all_seen : o.stop = none → o.seen.toList = items

namespace Search

/-- The invariant of a run: it holds of the answers that come after those seen before. -/
theorem runFrom_calls (s : Search α) (strategy : Strategy α) (seen : Array α) (j : Journal) :
    ∃ calls, (s.runFrom strategy seen j).seen = seen ++ calls.toArray ∧
      calls <+: (s.answers j).1 ∧
      (∀ n, 0 < n → n < calls.length → strategy (seen ++ (calls.take n).toArray) = none) ∧
      (∀ reason, (s.runFrom strategy seen j).stop = some reason ↔
        calls ≠ [] ∧ strategy (seen ++ calls.toArray) = some reason) ∧
      ((s.runFrom strategy seen j).stop = none → calls = (s.answers j).1) := by
  induction s generalizing seen j with
  | done => exact ⟨[], by simp [runFrom, answers]⟩
  | found a next ih =>
    cases now : strategy (seen.push a) with
    | some reason =>
      refine ⟨[a], by simp [runFrom, now], by simp [answers], ?_, by simp [runFrom, now], ?_⟩
      · intro n pos bound
        simp only [List.length_singleton] at bound
        omega
      · simp [runFrom, now]
    | none =>
      obtain ⟨calls, seen_eq, pre, goes_on, stop_iff, all_seen⟩ := ih () (seen.push a) j
      have shift (n : Nat) : seen ++ ((a :: calls).take (n + 1)).toArray =
          seen.push a ++ (calls.take n).toArray := by simp
      refine ⟨a :: calls, ?_, ?_, ?_, ?_, ?_⟩
      · simp [runFrom, now, seen_eq]
      · simpa [answers] using pre
      · intro n pos bound
        obtain _ | _ | n := n
        · simp at pos
        · simpa [shift] using now
        · rw [shift]
          exact goes_on (n + 1) (by omega) (by simpa using bound)
      · intro reason
        have whole := shift calls.length
        simp only [List.take_length, List.take_succ_cons] at whole
        simp only [runFrom, now, stop_iff, whole]
        cases calls with
        | nil => simp [now]
        | cons => simp
      · intro stop
        simp only [runFrom, now] at stop
        simp [answers, all_seen stop]
  | note n next ih => exact ih () seen (j.note n)
  | inherit p declared next ih => exact ih _ seen _

theorem run_runsOver (s : Search α) (strategy : Strategy α) (j : Journal) :
    strategy.RunsOver (s.answers j).1 (s.run strategy j) := by
  obtain ⟨calls, seen_eq, pre, goes_on, stop_iff, all_seen⟩ := s.runFrom_calls strategy #[] j
  simp only [Array.empty_append] at seen_eq goes_on stop_iff
  refine ⟨?_, ?_, ?_, ?_⟩
  · simpa [run, seen_eq] using pre
  · intro n pos bound
    have within : n < calls.length := by simpa [run, seen_eq] using bound
    have same : (s.answers j).1.take n = calls.take n := by
      rw [List.prefix_iff_eq_take.mp pre, List.take_take, Nat.min_eq_left (Nat.le_of_lt within)]
    rw [same]
    exact goes_on n pos within
  · intro reason
    simp [run, stop_iff, seen_eq, List.length_pos_iff]
  · intro stop
    simp [run, seen_eq, all_seen stop]

theorem first?_eq_head? (s : Search α) (j : Journal) : (s.first? j).1 = (s.answers j).1.head? := by
  simp only [first?, run]
  induction s generalizing j with
  | done => rfl
  | found a next ih => simp [runFrom, answers, Strategy.upTo]
  | note n next ih => exact ih ..
  | inherit p declared next ih => exact ih ..

end Search

namespace Pattern

theorem matchOutcome_all_seen (ev : Evaluator) (p : Pattern) (t : Term) (b : Bindings)
    (j : Journal) :
    (p.matchOutcome ev t b .all j).seen.toList = ((p.solutions ev t b).answers j).1 := by
  simp [matchOutcome_eq, Search.run, Search.runFrom_all]

theorem allMatches_eq (ev : Evaluator) (p : Pattern) (t : Term) (j : Journal) :
    p.allMatches ev t j = (p.solutions ev t .empty).answers j := by
  simp [allMatches, matchOutcome_eq, Search.run, Search.runFrom_all]

theorem firstMatch_eq (ev : Evaluator) (p : Pattern) (t : Term) (j : Journal) :
    (p.firstMatch ev t j).1 = (p.allMatches ev t j).1.head? := by
  rw [allMatches_eq, ← Search.first?_eq_head?]
  simp only [firstMatch, matchOutcome_eq, Search.first?]

theorem isMatch_eq (ev : Evaluator) (p : Pattern) (t : Term) (j : Journal) :
    (p.isMatch ev t j).1 = !(p.allMatches ev t j).1.isEmpty := by
  have isSome : (p.isMatch ev t j).1 = (p.firstMatch ev t j).1.isSome := rfl
  rw [isSome, firstMatch_eq]
  cases (p.allMatches ev t j).1 <;> rfl

/-- Whatever is reported to a visitor is a match. -/
theorem mem_answers_of_mem_seen {ev : Evaluator} {p : Pattern} {t : Term} {b nb : Bindings}
    {strategy : Strategy Bindings} {j : Journal} (reported : nb ∈ (p.matchOutcome ev t b strategy j).seen) :
    nb ∈ ((p.solutions ev t b).answers j).1 := by
  have runs := Search.run_runsOver (p.solutions ev t b) strategy j
  rw [matchOutcome_eq] at reported
  exact runs.seen_prefix.subset (Array.mem_toList_iff.mpr reported)

/-- A visitor that follows a strategy is called with the matches that are there in any case, in
their order, until the strategy first stops; that is also why the search stops, for whatever reason.
The first match is the first of all matches, and there is a match if there is a first one. -/
theorem matchOutcome_runsOver (ev : Evaluator) (p : Pattern) (t : Term) (b : Bindings)
    (strategy : Strategy Bindings) (j : Journal) :
    strategy.RunsOver (p.matchOutcome ev t b .all j).seen.toList (p.matchOutcome ev t b strategy j) ∧
      (p.firstMatch ev t j).1 = (p.allMatches ev t j).1.head? ∧
      (p.isMatch ev t j).1 = !(p.allMatches ev t j).1.isEmpty := by
  refine ⟨?_, firstMatch_eq ev p t j, isMatch_eq ev p t j⟩
  rw [matchOutcome_all_seen, matchOutcome_eq]
  exact Search.run_runsOver ..

end Pattern

end TermRewriting
