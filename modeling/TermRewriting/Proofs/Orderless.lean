import TermRewriting.Proofs.Matching.Simple
import TermRewriting.Proofs.Matching.Strategy

/-! Matching without order. An application under a head whose arguments have no order matches if
and only if its arguments can be put into an order in which they match one after the other. -/

namespace TermRewriting

def Evaluator.withoutAttributes (ev : Evaluator) (name : String) : Evaluator :=
  { ev with attributes := fun other => if other = name then {} else ev.attributes other }

namespace Pattern

variable {ev : Evaluator} {p head : Pattern} {elements : List Pattern}

theorem attributes_withoutAttributes {name : String} (h : head.attributes ev = {}) :
    head.attributes (ev.withoutAttributes name) = {} := by
  unfold Pattern.attributes at h ⊢
  cases symbol : head.symbol? with
  | none => rfl
  | some other =>
    rw [symbol] at h
    by_cases eq : other = name
    · simp [Evaluator.withoutAttributes, eq]
    · simpa [Evaluator.withoutAttributes, eq] using h

theorem Simple.withoutAttributes {name : String} (simple : p.Simple ev) :
    p.Simple (ev.withoutAttributes name) := by
  induction simple with
  | wildcard span head => exact .wildcard span head
  | named name _ ih => exact .named name ih
  | alternatives _ ih => exact .alternatives ih
  | hold _ ih => exact .hold ih
  | test predicate _ ih => exact .test predicate ih
  | repeated least most _ ih => exact .repeated least most ih
  | literal plain => exact .literal plain
  | compound attributes notSequence _ _ head_ih ih =>
    exact .compound (attributes_withoutAttributes attributes) notSequence head_ih ih

theorem Explicit.isMatch_iff (h : p.Explicit) (t : Term) (j : Journal) :
    (p.isMatch ev t j).1 = true ↔ ∃ m, m ∈ (search ev p {} t .empty).values := by
  rw [isMatch_eq, allMatches_eq, h.answers_solutions]
  cases (search ev p {} t .empty).values with
  | nil => simp
  | cons m ms => simp only [List.map_cons, List.isEmpty_cons, Bool.not_false, true_iff]; exact ⟨m, by simp⟩

/-- Without attributes other than that order is free, matching is fitting in some order. -/
theorem isMatch_compound_iff (ev : Evaluator) (notSequence : head.symbol? ≠ some "Sequence")
    (flat : (head.attributes ev).flat = false) (oneIdentity : (head.attributes ev).oneIdentity = false)
    (headSimple : head.Simple ev) (simple : ∀ p ∈ elements, p.Simple ev) {h : Term} {args : List Term}
    (plain : (Term.app h args).isPlain = true) (j : Journal) :
    ((compound head elements).isMatch ev (.app h args) j).1 = true ↔
      ∃ σ row, Fits (testHolds ev) σ head [h] ∧ Rearranged (head.attributes ev).orderless row args ∧
        FitsRow (testHolds ev) σ elements row := by
  have explicit : (compound head elements).Explicit :=
    .compound headSimple.explicit fun p member => (simple p member).explicit
  rw [explicit.isMatch_iff]
  constructor
  · rintro ⟨m, found⟩
    obtain ⟨_, h', args', row, eq, fits, order, fitsRow⟩ :=
      sound_compound notSequence flat oneIdentity headSimple.sound
        (fun p member => (simple p member).sound) [.app h args] (by simpa using plain) Bindings.isExact_empty found
    obtain ⟨rfl, rfl⟩ := Term.app.inj (List.singleton_inj.mp eq)
    exact ⟨_, row, fits, order, fitsRow⟩
  · rintro ⟨σ, row, fits, order, fitsRow⟩
    obtain ⟨m, found, -⟩ :=
      complete_compound (c := {}) flat oneIdentity headSimple.complete simple
        (fun p member => (simple p member).complete) plain (Bindings.agrees_empty σ) fits order fitsRow
    exact ⟨m, found⟩

/-- Under a head whose arguments have no order, and that has no other attributes, a pattern matches
if and only if it matches some rearrangement of the arguments where the head has no attributes. -/
theorem isMatch_orderless_iff {h : String} (orderless : ev.attributes h = { orderless := true })
    (notSequence : h ≠ "Sequence") (simple : ∀ p ∈ elements, p.Simple ev) {args : List Term}
    (plain : ∀ t ∈ args, t.isPlain = true) (j j' : Journal) :
    ((compound (.literal (.symbol h)) elements).isMatch ev (.app (.symbol h) args) j).1 = true ↔
      ∃ args', args'.Perm args ∧
        ((compound (.literal (.symbol h)) elements).isMatch (ev.withoutAttributes h)
          (.app (.symbol h) args') j').1 = true := by
  have symbol : (literal (.symbol h)).symbol? ≠ some "Sequence" := fun eq => notSequence (Option.some.inj eq)
  have ordered : (literal (.symbol h)).attributes (ev.withoutAttributes h) = {} := by
    simp [Pattern.attributes, symbol?, literal?, Term.symbol?, Evaluator.withoutAttributes]
  have free : (literal (.symbol h)).attributes ev = { orderless := true } := orderless
  have plainApp {row : List Term} (perm : row.Perm args) : (Term.app (.symbol h) row).isPlain = true :=
    Term.isPlain_app.mpr
      ⟨by simpa [Term.isSymbol, Term.symbol?] using notSequence, rfl, fun t member => plain t (perm.subset member)⟩
  have here := isMatch_compound_iff ev symbol (by rw [free]) (by rw [free]) (.literal rfl) simple
    (plainApp (.refl _)) j
  have there {row : List Term} (perm : row.Perm args) :=
    isMatch_compound_iff (ev.withoutAttributes h) symbol (by rw [ordered]) (by rw [ordered])
      (.literal rfl) (fun p member => (simple p member).withoutAttributes) (plainApp perm) j'
  rw [free] at here
  rw [ordered] at there
  constructor
  · intro matched
    obtain ⟨σ, row, fits, perm, fitsRow⟩ := here.mp matched
    exact ⟨row, perm, (there perm).mpr ⟨σ, row, fits, .refl .., fitsRow⟩⟩
  · rintro ⟨row, perm, matched⟩
    obtain ⟨σ, row', fits, order, fitsRow⟩ := (there perm).mp matched
    exact here.mpr ⟨σ, row', fits, order.perm.trans perm, fitsRow⟩

def unorderedF : Evaluator :=
  { Evaluator.bare with attributes := fun name => if name = "f" then { orderless := true } else {} }

/-- `f[b, a]` matches `f[a, x_]`, since `f[a, b]` does in order. -/
theorem isMatch_orderless_swapped :
    ((compound (.literal (.symbol "f")) [.literal (.symbol "a"), .named "x" (.wildcard .one none)]).isMatch
      unorderedF (.app (.symbol "f") [.symbol "b", .symbol "a"]) {}).1 = true :=
  (isMatch_orderless_iff (by decide) (by decide)
    (by
      intro p member
      rcases List.mem_cons.mp member with rfl | member
      · exact .literal (by decide)
      · obtain rfl := List.mem_singleton.mp member
        exact .named "x" (.wildcard .one none))
    (by decide) {} {}).mpr ⟨[.symbol "a", .symbol "b"], .swap .., by decide⟩

end Pattern

end TermRewriting
