import TermRewriting.Proofs.Matching.Explicit
import TermRewriting.Proofs.Matching.Strategy
import TermRewriting.Proofs.Search.Journal
import TermRewriting.Rule

/-! What a rule yields. Applying a rule hands over its results while they are found; what comes out
are results that come from a match each. -/

namespace TermRewriting.Rule

variable {ev : Evaluator} {r : Rule} {t result : Term}

theorem visitResults_eq (ev : Evaluator) (r : Rule) (t : Term) (whole : Bool) {κ : Type} :
    (r.visitResults ev t whole : (Term → Visit κ) → Visit κ) = (r.results ev t whole).visit := by
  funext k
  simp only [visitResults, results, Search.visit_bind, Search.visit_ofOption]
  refine Pattern.visit_eq_search ev r.lhs _ t .empty _ _ fun b rest _ => ?_
  cases r.result? ev t ⟨b, rest.leftover t⟩ <;> rfl

theorem apply_eq (ev : Evaluator) (r : Rule) (t : Term) (whole : Bool) :
    r.apply ev t whole = (r.results ev t whole).first? := by
  funext j
  simp only [apply, visitResults_eq, Search.outcome_visit, Search.first?]

theorem applyList_eq (ev : Evaluator) (r : Rule) (t : Term) (limit : Option Nat) :
    r.applyList ev t limit = (r.results ev t true).collect limit := by
  funext j
  simp only [applyList, visitResults_eq, Search.outcome_visit, Search.collect]

theorem mem_results {whole : Bool} :
    result ∈ (r.results ev t whole).values ↔
      ∃ m ∈ (r.lhs.search ev { whole } t .empty).values, r.result? ev t m = some result := by
  simp [results, Option.mem_toList]

theorem closed_results (explicit : r.lhs.Explicit) (whole : Bool) : (r.results ev t whole).Closed :=
  Search.closed_iff_asksOnly.mpr
    ((explicit.closed ..).asksOnly.bind fun _ => Search.asksOnly_ofOption _)

theorem mem_results_of_apply (explicit : r.lhs.Explicit) {whole : Bool} {j : Journal}
    (h : (r.apply ev t whole j).1 = some result) : result ∈ (r.results ev t whole).values := by
  rw [apply_eq, Search.first?_eq_head?, Search.answers_of_closed (closed_results explicit whole)] at h
  exact List.mem_of_mem_head? h

/-- A rule without inherited options turns a term into something if one of the matches yields a
result, whatever was matched before. -/
theorem isSome_apply (explicit : r.lhs.Explicit) {whole : Bool} {j : Journal} :
    (r.apply ev t whole j).1.isSome = true ↔
      ∃ m ∈ (r.lhs.search ev { whole } t .empty).values, (r.result? ev t m).isSome = true := by
  rw [apply_eq, Search.first?_eq_head?, Search.answers_of_closed (closed_results explicit whole),
    List.isSome_head?]
  constructor
  · intro some
    obtain ⟨result, member⟩ := List.exists_mem_of_ne_nil _ some
    obtain ⟨m, found, produced⟩ := mem_results.mp member
    exact ⟨m, found, by simp [produced]⟩
  · rintro ⟨m, found, produced⟩
    obtain ⟨result, produced⟩ := Option.isSome_iff_exists.mp produced
    exact List.ne_nil_of_mem (mem_results.mpr ⟨m, found, produced⟩)

/-- Only a match that leaves all arguments over, and there are some, yields no result. -/
theorem isSome_result? {m : Match} :
    (r.result? ev t m).isSome = true ↔ m.left.isEmpty = true ∨ m.left.size ≠ t.args.length := by
  unfold result?
  by_cases nothing : m.left.isEmpty = true <;> by_cases all : m.left.size = t.args.length <;>
    simp [nothing, all]

theorem mem_results_of_mem_applyList (explicit : r.lhs.Explicit) {j : Journal}
    (h : result ∈ (r.applyList ev t none j).1) : result ∈ (r.results ev t true).values := by
  rw [applyList_eq, Search.collect] at h
  simpa [Search.run, Search.runFrom_all, Search.answers_of_closed (closed_results explicit true)] using h

theorem make_eq_ok_iff {cell : Position} {lhs rhs : Term} {delayed : Bool} :
    make cell lhs rhs delayed = .ok r ↔
      ∃ p, Pattern.compileAt cell lhs = .ok p ∧ ⟨p, lhs, rhs, delayed⟩ = r := by
  unfold make
  cases Pattern.compileAt cell lhs <;> simp [Except.map]

section

open Journal (Corresponds)

variable {Q : List (Position × Options) → List (Position × Options) → Prop}

theorem corresponds_apply {whole : Bool} (h : (r.results ev t whole).Respects Q) :
    Corresponds Q (r.apply ev t whole) (r.apply ev t whole) := by
  rw [apply_eq]
  exact h.first?

theorem corresponds_applyList (h : (r.results ev t true).Respects Q) (limit : Option Nat) :
    Corresponds Q (r.applyList ev t limit) (r.applyList ev t limit) := by
  rw [applyList_eq]
  exact h.collect limit

end

end TermRewriting.Rule
