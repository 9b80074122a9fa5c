import TermRewriting.Proofs.Compile
import TermRewriting.Proofs.Matching.Kept
import TermRewriting.Proofs.Matching.Strategy
import TermRewriting.Proofs.Term.Spelling

/-! How long a run of siblings a pattern absorbs. For most patterns their width says it. A pattern that
may be left out and one with exceptions hand the run on as it is, so that it counts what the pattern
inside absorbs. -/

namespace TermRewriting

namespace Term

theorem isSequence_of_same {t u : Term} (h : t.same u = true) : t.isSequence = u.isSequence :=
  eq_of_canonical isSequence_canonical (same_iff.mp h).2

theorem isSequence_of_every {t : Term} (absent : t.every (!·.isSymbol "Sequence") = true) :
    t.isSequence = false := by
  cases t with
  | app head args => simpa [isSequence, isCall] using holds_of_every (every_app.mp absent).2.1
  | _ => rfl

end Term

namespace Pattern

mutual

/-- How many siblings the pattern can absorb at once. -/
def absorbs : Pattern → Width
  | .wildcard span _ => span.width
  | .named _ inner | .hold inner | .test inner _ | .condition inner _ => inner.absorbs
  | .optional inner _ => Width.join ⟨0, some 1⟩ inner.absorbs
  | .alternatives choices => absorbsOfAny choices
  | .except _ fallback => fallback.absorbs
  | .repeated _ least most => ⟨least, most⟩
  | .options _ _ => ⟨0, none⟩
  | .verbatim _ | .compound _ _ | .literal _ => .single

def absorbsOfAny : List Pattern → Width
  | [] => .single
  | [p] => p.absorbs
  | p :: q :: ps => p.absorbs.join (absorbsOfAny (q :: ps))

end

theorem admits_absorbsOfAny {ps : List Pattern} {p : Pattern} {n : Nat} (member : p ∈ ps)
    (h : p.absorbs.admits n = true) : (absorbsOfAny ps).admits n = true := by
  match ps, member with
  | [q], member =>
    obtain rfl := List.mem_singleton.mp member
    exact h
  | q :: r :: ps, member =>
    rcases List.mem_cons.mp member with rfl | later
    · exact Width.admits_join (.inl h)
    · exact Width.admits_join (.inr (admits_absorbsOfAny later h))

/-- The width counts what the pattern absorbs: what may be left out absorbs one sibling at most, and
what exceptions are made from absorbs exactly one. -/
inductive Counted : Pattern → Prop
  | wildcard (span : Span) (head : Option Term) : Counted (.wildcard span head)
  | named {inner : Pattern} (name : String) : Counted inner → Counted (.named name inner)
  | optional {inner : Pattern} {most : Nat} (inline : Option Term) :
    Counted inner → inner.width.most = some most → most ≤ 1 → Counted (.optional inner inline)
  | alternatives {choices : List Pattern} : (∀ p ∈ choices, Counted p) → Counted (.alternatives choices)
  | except {fallback : Pattern} (excluded : Pattern) :
    Counted fallback → fallback.width = .single → Counted (.except excluded fallback)
  | verbatim (t : Term) : Counted (.verbatim t)
  | hold {inner : Pattern} : Counted inner → Counted (.hold inner)
  | test {inner : Pattern} (predicate : Term) : Counted inner → Counted (.test inner predicate)
  | condition {inner : Pattern} (guard : Term) : Counted inner → Counted (.condition inner guard)
  | repeated (inner : Pattern) (least : Nat) (most : Option Nat) : Counted (.repeated inner least most)
  | options (cell : Position) (defaults : Option Term) : Counted (.options cell defaults)
  | compound (head : Pattern) (elements : List Pattern) : Counted (.compound head elements)
  | literal (t : Term) : Counted (.literal t)

theorem absorbsOfAny_eq {ps : List Pattern} (each : ∀ p ∈ ps, p.absorbs = p.width) :
    absorbsOfAny ps = widthOfAny ps := by
  match ps, each with
  | [], _ => rfl
  | [p], each => exact each p (by simp)
  | p :: q :: ps, each =>
    rw [absorbsOfAny, widthOfAny, each p (by simp), absorbsOfAny_eq fun r member => each r (by simp [member])]

theorem Counted.absorbs_eq {p : Pattern} (h : p.Counted) : p.absorbs = p.width := by
  induction h with
  | wildcard | verbatim | repeated | options | compound | literal => rfl
  | named _ _ ih | hold _ ih | test _ _ ih | condition _ _ ih => exact ih
  | @optional inner most _ _ few atMost ih =>
    rw [absorbs, ih, Width.join, few, Nat.zero_min]
    simp [width, Nat.max_eq_left atMost]
  | alternatives _ ih => exact absorbsOfAny_eq ih
  | except _ _ single ih => exact ih.trans single

variable {ev : Evaluator} {ts : List Term} {c : Context} {b : Bindings}

/-- A wildcard for one sibling matches no run at all, and one for several no empty run. -/
theorem all_absorbed_wildcard (span : Span) (head : Option Term) :
    Search.All (fun _ => span.width.admits ts.length = true)
      (search ev (.wildcard span head) c (.sequence ts) b) := by
  cases span with
  | one => exact Search.all_done
  | many =>
    rw [search]
    split
    · next all =>
      refine Search.all_one.mpr (Width.admits_iff.mpr ⟨List.length_pos_iff.mpr ?_, rfl⟩)
      rintro rfl
      simp at all
    · exact Search.all_done
  | any => exact Search.all_of_forall _ fun _ => Width.admits_iff.mpr ⟨Nat.zero_le _, rfl⟩

theorem symbol?_ne_sequence {source : Term} (absent : source.every (!·.isSymbol "Sequence") = true)
    {cell : Position} {p : Pattern} (compiled : compileAt cell source = .ok p) :
    (p.symbol? != some "Sequence") = true := by
  rw [symbol?_of_compileAt compiled]
  exact Term.holds_of_every absent

/-- A pattern that was read from a term without sequences in it matches a run only if it can absorb so
many siblings. The cases are those of reading the term. -/
theorem all_absorbed {source : Term} (absent : source.every (!·.isSymbol "Sequence") = true)
    {cell : Position} {p : Pattern} (compiled : compileAt cell source = .ok p) :
    Search.All (fun _ => p.absorbs.admits ts.length = true) (search ev p c (.sequence ts) b) := by
  induction source using Term.induct generalizing cell p c b with
  | app head args head_ih ih =>
    obtain ⟨-, inHead, inArgs⟩ := Term.every_app.mp absent
    have part {t : Term} {cell : Position} {p : Pattern} (compiled : compileAt cell t = .ok p)
        (member : t ∈ args) (c : Context) (b : Bindings) :
        Search.All (fun _ => p.absorbs.admits ts.length = true) (search ev p c (.sequence ts) b) :=
      ih t member (inArgs t member) compiled
    cases readFrom_of_compileAt compiled with
    | literal isAtom => cases isAtom
    | compound _ headCompiled _ =>
      rw [search, matchCompound, symbol?_ne_sequence inHead headCompiled]
      exact Search.all_done
    | wildcard span => exact all_absorbed_wildcard span _
    | named _ _ inner =>
      rw [search, Search.all_bind]
      refine Search.all_of_forall _ fun value => ?_
      split
      · split
        · exact part inner (by simp) c b
        · exact Search.all_done
      · exact part inner (by simp) c _
    | optional _ _ inner =>
      rw [search, Search.all_bind]
      -- The empty run is left out, whatever the pattern inside absorbs.
      by_cases empty : ts = []
      · subst empty
        exact Search.all_of_forall _ fun _ => Search.all_of_forall _ fun _ => Width.admits_join (.inl rfl)
      · have some : (Term.sequence ts).isEmptySequence = false := by
          simpa [Term.isEmptySequence, Term.isCallWith, Term.sequence, Term.call, Term.args] using fun _ => empty
        rw [some, if_neg Bool.false_ne_true, Search.all_one]
        exact (part inner (by simp) {} b).imp fun _ admits => Width.admits_join (.inr admits)
    | alternatives _ arguments =>
      rw [search]
      refine all_searchAny fun p member => ?_
      obtain ⟨t, inArgs, cell, compiled⟩ := exists_of_mem_compileArgs arguments p member
      exact (part compiled inArgs c b).imp fun _ => admits_absorbsOfAny member
    | exceptOnly =>
      rw [search]
      exact Search.all_barring (all_absorbed_wildcard .one none) _
    | except _ _ fallback =>
      rw [search]
      exact Search.all_barring (part fallback (by simp) c b) _
    | @verbatim _ t =>
      have other : t.same (.sequence ts) = false := by
        refine Bool.eq_false_iff.mpr fun same => ?_
        have isSequence := Term.isSequence_of_same same
        simp [Term.isSequence_of_every (inArgs t (by simp))] at isSequence
      rw [search, other]
      exact Search.all_done
    | hold _ inner => exact part inner (by simp) c b
    | test _ inner => exact (part inner (by simp) _ b).filter _
    | condition _ inner => exact (part inner (by simp) c b).filter _
    | repeated | repeatedRange =>
      rw [search]
      split
      · next admits => exact Search.all_of_forall _ fun _ => admits
      · exact Search.all_done
    | options => exact Search.all_of_forall _ fun _ => Width.admits_iff.mpr ⟨Nat.zero_le _, rfl⟩
  | _ =>
    obtain rfl := Except.ok.inj compiled
    exact Search.all_done

/-- A run that a pattern matches, read from a term without sequences, is no longer and no shorter than
what the pattern can absorb. If the pattern is counted, this is its width. -/
theorem admits_of_mem_sequenceOutcome {source : Term}
    (absent : source.every (!·.isSymbol "Sequence") = true) {p : Pattern}
    (compiled : compile source = .ok p) (items : List Term) (strategy : Strategy Bindings) (j : Journal) :
    ∀ m ∈ (p.sequenceOutcome ev items strategy j).seen.toList,
      p.absorbs.admits items.length = true ∧ (p.Counted → p.width.admits items.length = true) := by
  intro m member
  have outcome : p.sequenceOutcome ev items strategy j =
      (p.solutions ev (.sequence items) .empty).run strategy j := matchOutcome_eq ..
  have runs := (p.solutions ev (.sequence items) .empty).run_runsOver strategy j
  rw [← outcome] at runs
  have found := runs.seen_prefix.subset member
  have absorbed : Search.All (fun _ => p.absorbs.admits items.length = true)
      (p.solutions ev (.sequence items) .empty) :=
    Search.all_map.mpr (all_absorbed absent compiled)
  have admits := absorbed.answers j m found
  exact ⟨admits, fun counted => counted.absorbs_eq ▸ admits⟩

/-- `_ | __` matches the run of `a` and `b`, which is within its width. -/
theorem admits_of_mem_sequenceOutcome_alternatives :
    ∃ p, compile (.call "Alternatives" [.call "Blank" [], .call "BlankSequence" []]) = .ok p ∧ p.Counted ∧
      (p.sequenceOutcome .bare [.symbol "a", .symbol "b"] .all {}).seen.toList.isEmpty = false ∧
      ∀ m ∈ (p.sequenceOutcome .bare [.symbol "a", .symbol "b"] .all {}).seen.toList,
        p.absorbs.admits 2 = true ∧ (p.Counted → p.width.admits 2 = true) := by
  have compiled : compile (.call "Alternatives" [.call "Blank" [], .call "BlankSequence" []]) =
      .ok (.alternatives [.wildcard .one none, .wildcard .many none]) := rfl
  exact ⟨_, compiled, .alternatives (by simp [Counted.wildcard]), by decide,
    admits_of_mem_sequenceOutcome (by decide) compiled _ .all {}⟩

/-- What may be left out counts as one sibling at most, and `Optional[__, 0]` takes the run of `a` and
`b` as it is. Alone as an element it refuses the run, and as one of several choices it does not. -/
theorem sequenceOutcome_too_wide :
    ∃ p q, compile (.call "Optional" [.call "BlankSequence" [], .integer 0]) = .ok p ∧
      compile (.call "Alternatives" [.call "Optional" [.call "BlankSequence" [], .integer 0],
        .call "BlankSequence" [.symbol "Integer"]]) = .ok q ∧
      p.width.admits 2 = false ∧
      (p.sequenceOutcome .bare [.symbol "a", .symbol "b"] .all {}).seen.toList.isEmpty = false ∧
      ((compound (.literal (.symbol "f")) [p]).isMatch .bare
        (.call "f" [.symbol "a", .symbol "b"]) {}).1 = false ∧
      ((compound (.literal (.symbol "f")) [q]).isMatch .bare
        (.call "f" [.symbol "a", .symbol "b"]) {}).1 = true :=
  ⟨_, _, rfl, rfl, by decide, by decide, by decide, by decide⟩

end Pattern

end TermRewriting
