import TermRewriting.Evaluator
import TermRewriting.Proofs.Term.Plain

/-! Arranged terms. Under a symbol whose applications are flat and have no order, an arranged term
has its arguments in one fixed order and none of them nested; apart from that it is plain. -/

namespace TermRewriting.Term

variable (ev : Evaluator) (le : Term → Term → Prop)

inductive Arranged : Term → Prop
  | atom {t : Term} : t.isAtom = true → t.isExactAtom = true → Arranged t
  | app {head : Term} {args : List Term} : head.isSymbol "Sequence" = false → Arranged head →
    (∀ t ∈ args, Arranged t) →
      (∀ name, head = .symbol name → (ev.attributes name).flat = true →
        (ev.attributes name).orderless = true →
          args.Pairwise le ∧ ∀ t ∈ args, t.isHeadedBy head = false) → Arranged (.app head args)

def ArrangedRun (t : Term) : Prop := ∃ run, (∀ u ∈ run, Arranged ev le u) ∧ t = .ofRun run

variable {ev le}

theorem Arranged.isPlain {t : Term} (h : Arranged ev le t) : t.isPlain = true := by
  induction h with
  | @atom t isAtom exact =>
    cases t with
    | app head args => cases isAtom
    | _ => exact exact
  | app notSequence _ _ _ head_ih ih => exact isPlain_app.mpr ⟨notSequence, head_ih, ih⟩

theorem Arranged.isExact {t : Term} (h : Arranged ev le t) : t.isExact = true := isExact_of_isPlain h.isPlain

theorem Arranged.isSequence {t : Term} (h : Arranged ev le t) : t.isSequence = false :=
  isSequence_of_isPlain h.isPlain

theorem Arranged.run {t : Term} (h : Arranged ev le t) : ArrangedRun ev le t :=
  ⟨[t], by simpa using h, rfl⟩

theorem arrangedRun_sequence {run : List Term} (several : run.length ≠ 1)
    (h : ∀ u ∈ run, Arranged ev le u) : ArrangedRun ev le (sequence run) :=
  ⟨run, h, (ofRun_of_length_ne_one several).symm⟩

theorem ArrangedRun.isExact {t : Term} (h : ArrangedRun ev le t) : t.isExact = true := by
  obtain ⟨run, arranged, rfl⟩ := h
  exact isExact_ofRun fun u member => (arranged u member).isExact

theorem ArrangedRun.items {t : Term} (h : ArrangedRun ev le t) : ∀ u ∈ t.items, Arranged ev le u := by
  obtain ⟨run, arranged, rfl⟩ := h
  rwa [items_ofRun fun u member => (arranged u member).isSequence]

theorem ArrangedRun.cases {t : Term} (h : ArrangedRun ev le t) :
    Arranged ev le t ∨ ∃ run, run.length ≠ 1 ∧ (∀ u ∈ run, Arranged ev le u) ∧ t = sequence run := by
  obtain ⟨run, arranged, rfl⟩ := h
  by_cases alone : run.length = 1
  · obtain ⟨u, rfl⟩ := List.length_eq_one_iff.mp alone
    exact .inl (arranged u (by simp))
  · exact .inr ⟨run, alone, arranged, ofRun_of_length_ne_one alone⟩

/-- The parts of an application are arranged, and its arguments are in order unless it is a sequence. -/
theorem ArrangedRun.app {head : Term} {args : List Term} (h : ArrangedRun ev le (.app head args)) :
    Arranged ev le head ∧ (∀ t ∈ args, Arranged ev le t) ∧
      ∀ name, head = .symbol name → name ≠ "Sequence" → (ev.attributes name).flat = true →
        (ev.attributes name).orderless = true →
          args.Pairwise le ∧ ∀ t ∈ args, t.isHeadedBy head = false := by
  rcases h.cases with arranged | ⟨run, -, arranged, eq⟩
  · cases arranged with
    | atom isAtom => cases isAtom
    | app _ inHead inArgs sorted => exact ⟨inHead, inArgs, fun name eq _ => sorted name eq⟩
  · obtain ⟨rfl, rfl⟩ := Term.app.inj eq
    refine ⟨.atom rfl rfl, arranged, fun name eq other => ?_⟩
    exact absurd (Term.symbol.inj eq).symm other

end TermRewriting.Term
