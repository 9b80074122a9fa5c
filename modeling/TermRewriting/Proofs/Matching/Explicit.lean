import TermRewriting.Proofs.Matching.Asking

/-! Patterns without inherited options. What they match does not depend on what was matched before,
and all their matches can be listed at once. -/

namespace TermRewriting

/-- All options of a call have their defaults in the pattern itself. -/
inductive Pattern.Explicit : Pattern → Prop
  | wildcard (span : Span) (head : Option Term) : Explicit (.wildcard span head)
  | named {inner : Pattern} (name : String) : Explicit inner → Explicit (.named name inner)
  | optional {inner : Pattern} (inline : Option Term) : Explicit inner → Explicit (.optional inner inline)
  | alternatives {choices : List Pattern} : (∀ p ∈ choices, Explicit p) → Explicit (.alternatives choices)
  | except {excluded fallback : Pattern} :
    Explicit excluded → Explicit fallback → Explicit (.except excluded fallback)
  | verbatim (t : Term) : Explicit (.verbatim t)
  | hold {inner : Pattern} : Explicit inner → Explicit (.hold inner)
  | test {inner : Pattern} (predicate : Term) : Explicit inner → Explicit (.test inner predicate)
  | condition {inner : Pattern} (guard : Term) : Explicit inner → Explicit (.condition inner guard)
  | repeated {inner : Pattern} (least : Nat) (most : Option Nat) :
    Explicit inner → Explicit (.repeated inner least most)
  | options (cell : Position) (defaults : Term) : Explicit (.options cell (some defaults))
  | compound {head : Pattern} {elements : List Pattern} :
    Explicit head → (∀ p ∈ elements, Explicit p) → Explicit (.compound head elements)
  | literal (t : Term) : Explicit (.literal t)

namespace Pattern

variable {ev : Evaluator}

theorem Explicit.inherits_nothing {p : Pattern} (h : p.Explicit) :
    ¬p.Inherits ∧ (∀ symbol, p.inherited Term.symbol? symbol = []) ∧ p.InheritsUnder fun _ => False := by
  have none_of_all {ps : List Pattern} (each : ∀ p ∈ ps, ∀ symbol, p.inherited Term.symbol? symbol = [])
      (symbol : Option String) : inheritedOfAll Term.symbol? symbol ps = [] := by
    refine List.eq_nil_iff_forall_not_mem.mpr fun entry member => ?_
    obtain ⟨p, inList, inPattern⟩ := mem_inheritedOfAll.mp member
    simp [each p inList symbol] at inPattern
  induction h with
  | wildcard span head => exact ⟨by rintro ⟨⟩, fun _ => rfl, .wildcard span head⟩
  | named name _ ih =>
    refine ⟨?_, ih.2.1, .named name ih.2.2⟩
    rintro ⟨⟩
    exact ih.1 ‹_›
  | optional inline _ ih => exact ⟨by rintro ⟨⟩, fun _ => ih.2.1 none, .optional inline ih.2.2⟩
  | alternatives _ ih =>
    refine ⟨?_, ?_, .alternatives fun p member => (ih p member).2.2⟩
    · rintro ⟨⟩
      exact (ih _ ‹_›).1 ‹_›
    · exact none_of_all fun p member => (ih p member).2.1
  | except _ _ excluded fallback =>
    refine ⟨?_, fun symbol => ?_, .except excluded.2.2 fallback.2.2⟩
    · rintro (_ | _)
      · exact excluded.1 ‹_›
      · exact fallback.1 ‹_›
    · rw [inherited, excluded.2.1, fallback.2.1, List.append_nil]
  | verbatim t => exact ⟨by rintro ⟨⟩, fun _ => rfl, .verbatim t⟩
  | hold _ ih =>
    refine ⟨?_, ih.2.1, .hold ih.2.2⟩
    rintro ⟨⟩
    exact ih.1 ‹_›
  | test predicate _ ih =>
    refine ⟨?_, ih.2.1, .test predicate ih.2.2⟩
    rintro ⟨⟩
    exact ih.1 ‹_›
  | condition guard _ ih =>
    refine ⟨?_, ih.2.1, .condition guard ih.2.2⟩
    rintro ⟨⟩
    exact ih.1 ‹_›
  | repeated least most _ ih => exact ⟨by rintro ⟨⟩, fun _ => ih.2.1 none, .repeated least most ih.2.2⟩
  | options cell defaults => exact ⟨by rintro ⟨⟩, fun _ => rfl, .options cell (some defaults)⟩
  | compound _ _ head ih =>
    refine ⟨by rintro ⟨⟩, fun symbol => ?_, .compound ?_ head.2.2 fun p member => (ih p member).2.2⟩
    · rw [inherited, head.2.1, none_of_all fun p member => (ih p member).2.1, List.append_nil]
    · rintro ⟨p, member, direct⟩
      exact ((ih p member).1 direct).elim
  | literal t => exact ⟨by rintro ⟨⟩, fun _ => rfl, .literal t⟩

theorem Explicit.closed {p : Pattern} (h : p.Explicit) (c : Context) (t : Term) (b : Bindings) :
    (search ev p c t b).Closed := by
  obtain ⟨direct, inherited, under⟩ := h.inherits_nothing
  refine Search.closed_iff_asksOnly.mpr (under.asksOnly (fun _ _ => False.elim) none ?_ c ?_ t b)
  · simp [inherited]
  · exact fun inherits => (direct inherits).elim

/-- The matches of a pattern without inherited options are a plain list. -/
theorem Explicit.answers_solutions {p : Pattern} (h : p.Explicit) (t : Term) (b : Bindings) (j : Journal) :
    ((p.solutions ev t b).answers j).1 = (search ev p {} t b).values.map (·.bindings) := by
  have closed : (p.solutions ev t b).Closed :=
    Search.closed_iff_asksOnly.mpr ((h.closed {} t b).asksOnly.map _)
  rw [Search.answers_of_closed closed, Pattern.solutions, Search.values_map]

end Pattern

end TermRewriting
