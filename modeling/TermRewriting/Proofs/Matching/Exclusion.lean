import TermRewriting.Proofs.Matching.Parallel
import TermRewriting.Proofs.Matching.Strategy
import TermRewriting.Replace

/-! Exclusion. What is excluded only decides whether the fallback is matched at all: it is probed to its
first match, and nothing that it binds is left afterwards. -/

namespace TermRewriting

/-- The cells of a pattern and those of the same pattern read further down. -/
def Below (d cell cell' : Position) : Prop := cell' = cell ++ d

theorem below_biUnique (d : Position) : Relator.BiUnique (Below d) :=
  ⟨fun _ _ _ first second => List.append_cancel_right (first.symm.trans second),
    fun _ _ _ first second => first.trans second.symm⟩

namespace Pattern

variable {ev : Evaluator} {t : Term} {b : Bindings} {P Q : Term} {p q : Pattern}

theorem parallel_solutions (d : Position) :
    Search.Parallel (Below d) Eq (p.solutions ev t b) ((p.relocate (· ++ d)).solutions ev t b) :=
  (parallel_relocate (f := (· ++ d)) (fun _ _ => rfl) (.eq p.names p.guards) {} t b b rfl).map fun _ _ matched =>
    matched.1

theorem solutions_except : (Pattern.except p q).solutions ev t b =
    (p.solutions ev t b).barring fun _ => q.solutions ev t b := by
  rw [solutions, search, Search.map_barring, solutions, Search.barring_map_left]
  rfl

theorem compile_except (excluded : compile P = .ok p) (fallback : compile Q = .ok q) :
    compile (.call "Except" [P, Q]) = .ok (.except (p.relocate (· ++ [1])) (q.relocate (· ++ [2]))) :=
  compileAt_of_readFrom (.except rfl (compileAt_of_compile excluded [1]) (compileAt_of_compile fallback [2]))

theorem compile_exceptOnly (excluded : compile P = .ok p) :
    compile (.call "Except" [P]) = .ok (.except (p.relocate (· ++ [1])) (.wildcard .one none)) :=
  compileAt_of_readFrom (.exceptOnly rfl (compileAt_of_compile excluded [1]))

theorem matchQ_of_compile (reads : compile P = .ok p) (ev : Evaluator) (t : Term) (j : Journal) :
    (matchQ ev P t j).1 = .ok (p.isMatch ev t j.forget).1 := by
  unfold matchQ
  rw [reads]
  rfl

theorem answers_probe {j jp : Journal} (kept : Search.KeepAlike (Below [1]) jp.inherited j.inherited) :
    (((p.relocate (· ++ [1])).solutions ev t b).answers j).1 = (p.matchOutcome ev t b .all jp).seen.toList := by
  rw [matchOutcome_all_seen]
  exact (List.forall₂_eq_eq_eq ▸ (parallel_solutions [1]).answers (below_biUnique [1]) kept).symm

theorem keepAlike_probe {j jq : Journal} (kept : Search.KeepAlike (Below [2]) jq.inherited j.inherited) :
    Search.KeepAlike (Below [2]) jq.inherited
      (((p.relocate (· ++ [1])).solutions ev t b).answers j).2.inherited := by
  rintro cell _ rfl
  rw [(parallel_solutions [1]).asksOnly.lookup_answers (fun _ => ?_), kept _ _ rfl]
  rintro ⟨other, same⟩
  simpa using (List.append_inj' (show cell ++ [2] = other ++ [1] from same) rfl).2

/-- What is matched by `Except[p, q]`, whatever strategy a visitor follows, is what `q` matches if `p` has
no match, and nothing otherwise; nothing is left of what `p` binds. So `Except[p]` matches a single term
exactly if `p` does not. The journals need only agree about the options that have been kept for the parts. -/
theorem except_negates (excluded : compile P = .ok p) (fallback : compile Q = .ok q) :
    (∃ r, compile (.call "Except" [P, Q]) = .ok r ∧
      ∀ (ev : Evaluator) (t : Term) (b : Bindings) (strategy : Strategy Bindings) (j jp jq : Journal),
        Search.KeepAlike (Below [1]) jp.inherited j.inherited →
        Search.KeepAlike (Below [2]) jq.inherited j.inherited →
        let probed := (p.matchOutcome ev t b .all jp).seen
        let matched := q.matchOutcome ev t b strategy jq
        (r.matchOutcome ev t b strategy j).seen = (if probed.isEmpty then matched.seen else #[]) ∧
          (r.matchOutcome ev t b strategy j).stop = if probed.isEmpty then matched.stop else none) ∧
      ∀ (ev : Evaluator) (t : Term), t.isSequence = false → ∀ j j',
        (matchQ ev (.call "Except" [P]) t j).1 = (matchQ ev P t j').1.map (!·) := by
  refine ⟨⟨_, compile_except excluded fallback, ?_⟩, fun ev t single j j' => ?_⟩
  · intro ev t b strategy j jp jq keptProbe kept probed matched
    have probe : _ = probed.toList := answers_probe keptProbe
    rw [matchOutcome_eq ev (.except _ _), solutions_except]
    cases none : probed.isEmpty with
    | true =>
      rw [Array.isEmpty_iff.mp none] at probe
      obtain ⟨seen, stop⟩ := (parallel_solutions [2]).run (below_biUnique [2]) (keepAlike_probe kept) strategy
      rw [Search.run_barring_of_none probe, if_pos rfl, if_pos rfl]
      simp only [matched, matchOutcome_eq]
      exact ⟨seen.symm, stop.symm⟩
    | false =>
      refine Search.run_barring_of_some (fun nothing => ?_) ..
      rw [probe, Array.toList_eq_nil_iff] at nothing
      simp [nothing] at none
  · have probe : _ = (p.allMatches ev t j'.forget).1 := answers_probe (j := j.forget) fun _ _ _ => rfl
    rw [matchQ_of_compile excluded, matchQ_of_compile (compile_exceptOnly excluded), Except.map, isMatch_eq,
      isMatch_eq, allMatches, matchOutcome_eq, solutions_except]
    cases none : (p.allMatches ev t j'.forget).1 with
    | nil =>
      rw [none] at probe
      rw [Search.run_barring_of_none probe, solutions, search, single]
      rfl
    | cons first rest =>
      rw [(Search.run_barring_of_some (by simp [probe, none]) _ _).1]
      rfl

/-- `Except[Except[a], x_]` matches `a` like `x_`, although there is an exclusion within the exclusion. -/
theorem except_negates_nested :
    ∃ r, compile (.call "Except" [.call "Except" [.symbol "a"], .call "Pattern" [.symbol "x", .call "Blank" []]]) =
        .ok r ∧
      (r.matchOutcome .bare (.symbol "a") .empty .all {}).seen =
        ((named "x" (.wildcard .one none)).matchOutcome .bare (.symbol "a") .empty .all {}).seen := by
  obtain ⟨r, reads, same⟩ := (except_negates (P := .call "Except" [.symbol "a"])
    (Q := .call "Pattern" [.symbol "x", .call "Blank" []]) rfl rfl).1
  exact ⟨r, reads, (same .bare (.symbol "a") .empty .all {} {} {} (fun _ _ _ => rfl) fun _ _ _ => rfl).1⟩

end Pattern

end TermRewriting
