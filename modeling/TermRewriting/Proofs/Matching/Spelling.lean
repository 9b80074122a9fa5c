import TermRewriting.Proofs.Orderless
import TermRewriting.Proofs.Search.Alike
import TermRewriting.Proofs.Term.Spelling
import TermRewriting.Replace

/-! Matching and the spelling of truth values. Patterns compare terms by sameness when they are
matched, but by structure when it is tried beforehand whether an argument may match at all. As long as
nothing compared by structure is a truth value, terms that are the same match the same patterns. -/

namespace TermRewriting

open Term (canonical truthName)

/-- The truth values have no attributes and no default values. -/
structure Evaluator.Impartial (ev : Evaluator) : Prop where
  attributes : ∀ b, ev.attributes (truthName b) = {}
  defaultValue : ∀ b position count, ev.defaultValue ⟨truthName b, position, count⟩ = none

/-- The same variables are bound, and to values that are spelled differently at most. -/
def Bindings.Alike (b b' : Bindings) : Prop :=
  ∀ x, (b.get? x).map canonical = (b'.get? x).map canonical

theorem Bindings.Alike.bind {b b' : Bindings} (h : b.Alike b') (x : String) {v v' : Term}
    (value : v.canonical = v'.canonical) : (b.bind x v).Alike (b'.bind x v') := by
  intro y
  rw [get?_bind, get?_bind]
  split
  · exact congrArg some value
  · exact h y

def Place.canonical (p : Place) : Place := { p with head := p.head.canonical }

structure Context.Alike (c c' : Context) : Prop where
  place : c.place.map Place.canonical = c'.place.map Place.canonical
  whole : c.whole = c'.whole

theorem Context.Alike.refl (c : Context) : c.Alike c := ⟨rfl, rfl⟩

def Match.Alike (m m' : Match) : Prop := m.bindings.Alike m'.bindings

/-- What is found does not depend on the spelling of what it is matched against. -/
def Matcher.Indifferent (matcher : Matcher) : Prop :=
  ∀ c c' t t' b b', c.Alike c' → t.canonical = t'.canonical → b.Alike b' →
    Search.Alike Match.Alike (matcher c t b) (matcher c' t' b')

namespace Pattern

/-- The term that an argument is compared with before the pattern is tried on it. -/
def compared? : Pattern → Option Term
  | .wildcard _ head => head
  | .named _ inner | .hold inner | .test inner _ | .condition inner _ => inner.compared?
  | .verbatim v | .literal v => some v
  | _ => none

theorem mayMatch_canonical {p : Pattern} (free : p.compared?.all Term.isTruthFree = true) (t : Term) :
    p.mayMatch t.canonical = p.mayMatch t := by
  induction p using Pattern.induct with
  | wildcard span head =>
    cases head with
    | none => rfl
    | some h => exact Term.isHeadedBy_canonical free t
  | named _ _ ih | hold _ ih | test _ _ ih | condition _ _ ih => exact ih free
  | verbatim v | literal v => exact Term.beq_canonical free t
  | options cell defaults =>
    rw [mayMatch, mayMatch, Term.isCall_canonical (by decide), Term.isCall_canonical (by decide),
      Term.isCall_canonical (by decide)]
  | _ => rfl

/-- All that is compared by structure is free of truth values, and nothing is asked of terms but
how they compare. -/
inductive Lenient : Pattern → Prop
  | wildcard {head : Option Term} (span : Span) :
    head.all Term.isTruthFree = true → Lenient (.wildcard span head)
  | named {inner : Pattern} (name : String) : Lenient inner → Lenient (.named name inner)
  | optional {inner : Pattern} (inline : Option Term) : Lenient inner → Lenient (.optional inner inline)
  | alternatives {choices : List Pattern} : (∀ p ∈ choices, Lenient p) → Lenient (.alternatives choices)
  | except {excluded fallback : Pattern} :
    Lenient excluded → Lenient fallback → Lenient (.except excluded fallback)
  | verbatim (v : Term) : Lenient (.verbatim v)
  | hold {inner : Pattern} : Lenient inner → Lenient (.hold inner)
  | repeated {inner : Pattern} (least : Nat) (most : Option Nat) :
    Lenient inner → Lenient (.repeated inner least most)
  | compound {head : Pattern} {elements : List Pattern} : Lenient head → (∀ p ∈ elements, Lenient p) →
    (∀ p ∈ elements, p.compared?.all Term.isTruthFree = true) → Lenient (.compound head elements)
  | literal (v : Term) : Lenient (.literal v)

theorem Lenient.explicit {p : Pattern} (h : p.Lenient) : p.Explicit := by
  induction h with
  | wildcard span _ => exact .wildcard span _
  | named name _ ih => exact .named name ih
  | optional inline _ ih => exact .optional inline ih
  | alternatives _ ih => exact .alternatives ih
  | except _ _ excluded_ih ih => exact .except excluded_ih ih
  | verbatim v => exact .verbatim v
  | hold _ ih => exact .hold ih
  | repeated least most _ ih => exact .repeated least most ih
  | compound _ _ _ head_ih ih => exact .compound head_ih ih
  | literal v => exact .literal v

end Pattern

namespace Siblings

structure Alike (s s' : Siblings) : Prop where
  head : s.head.canonical = s'.head.canonical
  args : s.args.map canonical = s'.args.map canonical
  attributes : s.attributes = s'.attributes
  count : s.count = s'.count
  whole : s.whole = s'.whole
  flat : s.attributes.flat = true → s.head = s'.head ∧ s.head.isTruthFree = true

section

variable {s s' : Siblings} {p : Pattern} {b b' : Bindings}

theorem Alike.flattens (h : s.Alike s') (p : Pattern) : s.flattens p = s'.flattens p := by
  unfold Siblings.flattens
  rw [← h.attributes]
  cases flat : s.attributes.flat with
  | false => rfl
  | true => rw [(h.flat flat).1]

theorem Alike.fits (h : s.Alike s') (p : Pattern) : s.fits p = s'.fits p := by
  funext t
  rw [Siblings.fits, Siblings.fits, h.flattens]

theorem Alike.most (h : s.Alike s') (p : Pattern) : s.most p = s'.most p := by
  rw [Siblings.most, Siblings.most, h.attributes]

theorem fits_canonical (free : p.compared?.all Term.isTruthFree = true) (s : Siblings) (t : Term) :
    s.fits p t.canonical = s.fits p t := by
  rw [Siblings.fits, Siblings.fits, Pattern.mayMatch_canonical free]

theorem Alike.needed (h : s.Alike s') {v v' : Term} (value : v.canonical = v'.canonical) :
    (s.needed v).map canonical = (s'.needed v').map canonical := by
  have sequence : v.isSequence = v'.isSequence := Term.eq_of_canonical Term.isSequence_canonical value
  have application :
      (s.attributes.flat && v.isHeadedBy s.head) = (s'.attributes.flat && v'.isHeadedBy s'.head) := by
    rw [← h.attributes]
    cases flat : s.attributes.flat with
    | false => rfl
    | true =>
      obtain ⟨head, free⟩ := h.flat flat
      rw [← head]
      exact Term.eq_of_canonical (f := (·.isHeadedBy s.head)) (Term.isHeadedBy_canonical free) value
  unfold Siblings.needed
  rw [sequence, application]
  split
  · rw [← Term.args_canonical, value, Term.args_canonical]
  · simpa using value

theorem take?_same_congr {wanted wanted' : List Term} (eq : wanted.map canonical = wanted'.map canonical)
    (fits : Term → Bool) (items : List Term) :
    take? (fun want t => t.same want && fits t) wanted items =
      take? (fun want t => t.same want && fits t) wanted' items := by
  have pairs := Search.forall₂_of_map_eq eq
  clear eq
  induction pairs generalizing items with
  | nil => rfl
  | cons first _ ih =>
    simp only [take?, ih, Term.same_congr rfl first]

theorem boundTo?_alike (alike : b.Alike b') (p : Pattern) :
    (Siblings.boundTo? b p).map canonical = (Siblings.boundTo? b' p).map canonical := by
  cases p with
  | named name inner => exact alike name
  | _ => rfl

theorem splits_canonical (free : p.compared?.all Term.isTruthFree = true) (s : Siblings)
    (first last : Bool) (items : List Term) (b : Bindings) :
    s.splits p first last (items.map canonical) b =
      (s.splits p first last items b).map (Split.map canonical) := by
  have fits : (fun t : Term => s.fits p t.canonical) = s.fits p := funext (fits_canonical free s)
  have count : ((items.map canonical).filter (s.fits p)).length = (items.filter (s.fits p)).length := by
    rw [List.filter_map, List.length_map]
    exact congrArg (fun f => (items.filter f).length) fits
  unfold splits
  simp only [count]
  split
  · rfl
  split
  · exact Search.runs_map ..
  cases Siblings.boundTo? b p with
  | none =>
    simp only [Search.subsets_map, fits]
  | some value =>
    have does (want t : Term) : (t.canonical.same want && s.fits p t.canonical) =
        (t.same want && s.fits p t) := by
      rw [Term.same_congr (Term.canonical_canonical t) rfl, fits_canonical free]
    simp only [take?_map, does]
    cases take? _ _ items <;> simp [Search.ofOption, Search.map_eq_bind, Search.one_bind, Search.bind]

theorem Alike.splits_eq (h : s.Alike s') (alike : b.Alike b') (p : Pattern) (first last : Bool)
    (items : List Term) : s.splits p first last items b = s'.splits p first last items b' := by
  unfold splits
  rw [h.fits, h.most, h.attributes, h.whole]
  have bound := boundTo?_alike alike p
  cases value : Siblings.boundTo? b p with
  | none =>
    rw [value] at bound
    rw [Option.map_eq_none_iff.mp bound.symm]
  | some v =>
    rw [value] at bound
    obtain ⟨v', value', eq⟩ := Option.map_eq_some_iff.mp bound.symm
    rw [value']
    simp only [take?_same_congr (h.needed eq.symm)]

theorem Alike.splits (h : s.Alike s') (alike : b.Alike b')
    (free : p.compared?.all Term.isTruthFree = true) (first last : Bool) {items items' : List Term}
    (same : items.map canonical = items'.map canonical) :
    Search.Alike (fun split split' => split.map canonical = split'.map canonical)
      (s.splits p first last items b) (s'.splits p first last items' b') := by
  apply Search.alike_of_map_eq
  rw [← splits_canonical free, ← splits_canonical free, same, h.splits_eq alike]

theorem Alike.presentations (h : s.Alike s') (p : Pattern) {chosen chosen' : List Term}
    (same : chosen.map canonical = chosen'.map canonical) :
    Search.Alike (fun t t' => t.canonical = t'.canonical) (s.presentations p chosen)
      (s'.presentations p chosen') := by
  have length : chosen.length = chosen'.length := by simpa using congrArg List.length same
  by_cases alone : chosen.length = 1
  · obtain ⟨t, rfl⟩ := List.length_eq_one_iff.mp alone
    obtain ⟨t', rfl⟩ := List.length_eq_one_iff.mp (length.symm.trans alone)
    exact Search.alike_one (List.singleton_inj.mp same)
  have arranged : Search.Alike (fun ts ts' => ts.map canonical = ts'.map canonical)
      (if s.attributes.orderless then Search.permutations chosen else .one chosen)
      (if s'.attributes.orderless then Search.permutations chosen' else .one chosen') := by
    rw [h.attributes]
    refine .ite Iff.rfl (fun _ => Search.alike_of_map_eq ?_) (Search.alike_one same)
    rw [← Search.permutations_map, ← Search.permutations_map, same]
  rw [presentations_of_length_ne_one _ _ alone, presentations_of_length_ne_one _ _ (length ▸ alone)]
  refine .append (.ite (by rw [length]) (fun _ => arranged.map fun ts ts' eq => ?_) Search.alike_done) ?_
  · rw [Term.canonical_sequence, Term.canonical_sequence, eq]
  · have empty : chosen.isEmpty = chosen'.isEmpty := by simpa using congrArg List.isEmpty same
    have count : s.args.length = s'.args.length := by simpa using congrArg List.length h.args
    refine .ite (by rw [h.flattens, empty, length, count]) (fun _ => Search.alike_one ?_) Search.alike_done
    rw [Term.canonical_app, Term.canonical_app, h.head, same]

theorem Alike.distribute (h : s.Alike s') {elements : List (Element Matcher)}
    (free : ∀ e ∈ elements, e.pattern.compared?.all Term.isTruthFree = true)
    (indifferent : ∀ e ∈ elements, e.matcher.Indifferent) (first : Bool) {items items' : List Term}
    (same : items.map canonical = items'.map canonical) (alike : b.Alike b') :
    Search.Alike Match.Alike (s.distribute first elements items b)
      (s'.distribute first elements items' b') := by
  induction elements generalizing first items items' b b' with
  | nil =>
    have empty : items.isEmpty = items'.isEmpty := by simpa using congrArg List.isEmpty same
    exact .ite (by rw [h.whole, empty]) (fun _ => Search.alike_done) (Search.alike_one alike)
  | cons e later ih =>
    have context : Context.Alike ⟨some ⟨s.head, e.position, s.count⟩, true⟩
        ⟨some ⟨s'.head, e.position, s'.count⟩, true⟩ :=
      ⟨by simp [Place.canonical, h.head, h.count], rfl⟩
    refine (h.splits alike (free e (by simp)) first later.isEmpty same).bind fun split _ split' splits => ?_
    refine (h.presentations e.pattern (congrArg Split.chosen splits)).bind fun t _ t' presented => ?_
    refine (indifferent e (by simp) _ _ t t' b b' context presented alike).bind fun m _ m' matched => ?_
    have rest := ih (fun e member => free e (by simp [member]))
      (fun e member => indifferent e (by simp [member])) false (congrArg Split.after splits) matched
    exact rest.map fun _ _ related => related

theorem Alike.matchAll (h : s.Alike s') {elements : List (Element Matcher)}
    (free : ∀ e ∈ elements, e.pattern.compared?.all Term.isTruthFree = true)
    (indifferent : ∀ e ∈ elements, e.matcher.Indifferent) (alike : b.Alike b') :
    Search.Alike Match.Alike (s.matchAll elements b) (s'.matchAll elements b') := by
  have surroundings (whole : Bool) :
      Alike { s with whole := s.whole || whole } { s' with whole := s'.whole || whole } :=
    ⟨h.head, h.args, h.attributes, h.count, by rw [h.whole], h.flat⟩
  have order : Element.inOrder s'.attributes.orderless elements =
      Element.inOrder s.attributes.orderless elements := by rw [h.attributes]
  simp only [Siblings.matchAll, order]
  exact (surroundings _).distribute (fun e member => free e (Element.mem_inOrder member))
    (fun e member => indifferent e (Element.mem_inOrder member)) true h.args alike

end

end Siblings

namespace Pattern

variable {ev : Evaluator} {head : Pattern} {elements : List (Element Matcher)} {t t' : Term}
  {b b' : Bindings}

/-- Attributes come from a symbol, and the symbol is no truth value. -/
theorem symbol_of_attributes (impartial : ev.Impartial) (declared : head.attributes ev ≠ {}) :
    ∃ name, head = .literal (.symbol name) ∧ ∀ b, name ≠ truthName b := by
  unfold Pattern.attributes at declared
  cases symbol : head.symbol? with
  | none =>
    rw [symbol] at declared
    exact (declared rfl).elim
  | some name =>
    rw [symbol] at declared
    refine ⟨name, ?_, ?_⟩
    · cases head with
      | literal v =>
        cases v with
        | symbol _ => exact congrArg _ (congrArg _ (Option.some.inj symbol))
        | _ => cases symbol
      | _ => cases symbol
    · rintro b rfl
      exact declared (impartial.attributes b)

theorem alike_matchApplication (impartial : ev.Impartial) (headIndifferent : (search ev head).Indifferent)
    (free : ∀ e ∈ elements, e.pattern.compared?.all Term.isTruthFree = true)
    (indifferent : ∀ e ∈ elements, e.matcher.Indifferent) (whole : Bool)
    (same : t.canonical = t'.canonical) (alike : b.Alike b') :
    Search.Alike Match.Alike
      (matchApplication (search ev head) elements (head.attributes ev) whole t b)
      (matchApplication (search ev head) elements (head.attributes ev) whole t' b') := by
  cases t with
  | app h args =>
    cases t' with
    | app h' args' =>
      rw [Term.canonical_app, Term.canonical_app, Term.app.injEq] at same
      obtain ⟨sameHead, sameArgs⟩ := same
      have length : args.length = args'.length := by simpa using congrArg List.length sameArgs
      refine .ite (by rw [length]) (fun _ => ?_) Search.alike_done
      refine (headIndifferent {} {} h h' b b' (.refl _) sameHead alike).bind fun m found m' matched => ?_
      suffices surroundings : Siblings.Alike
          ⟨h, args, head.attributes ev, elements.length, whole || !(head.attributes ev).flat⟩
          ⟨h', args', head.attributes ev, elements.length, whole || !(head.attributes ev).flat⟩ from
        surroundings.matchAll free indifferent matched
      refine ⟨sameHead, sameArgs, rfl, rfl, rfl, fun flat => ?_⟩
      -- A flat head is a symbol in the pattern, and only that symbol itself is the same as it.
      have declared : head.attributes ev ≠ {} := by
        intro none
        rw [none] at flat
        cases flat
      obtain ⟨name, rfl, other⟩ := symbol_of_attributes impartial declared
      rw [search, Search.values_ite] at found
      split at found
      · next equal =>
        have spelled := (Term.same_iff.mp equal).2
        have left : h = .symbol name := Term.eq_symbol_of_canonical other spelled.symm
        have right : h' = .symbol name := Term.eq_symbol_of_canonical other (spelled.trans sameHead).symm
        exact ⟨left.trans right.symm, left ▸ Term.isTruthFree_symbol other⟩
      · simp at found
    | _ => simp [canonical] at same
  | _ =>
    cases t' with
    | app h' args' => simp [canonical] at same
    | _ => exact Search.alike_done

theorem standsAlone_congr {h : Term} (free : h.isTruthFree = true) (same : t.canonical = t'.canonical)
    (ps : List Pattern) : standsAlone h ps t = standsAlone h ps t' := by
  have headed : t.isHeadedBy h = t'.isHeadedBy h :=
    Term.eq_of_canonical (f := (·.isHeadedBy h)) (Term.isHeadedBy_canonical free) same
  have equal : (t == h) = (t' == h) := Term.eq_of_canonical (f := (· == h)) (Term.canonical_beq free) same
  rw [standsAlone, standsAlone, headed, bne, bne, equal]

theorem alike_matchLone {h : Term} (free : h.isTruthFree = true)
    (indifferent : ∀ e ∈ elements, e.matcher.Indifferent) (same : t.canonical = t'.canonical)
    (alike : b.Alike b') :
    Search.Alike Match.Alike (matchLone (some h) elements t b) (matchLone (some h) elements t' b') := by
  refine .ite (by rw [standsAlone_congr free same]) (fun _ => Search.alike_done) ?_
  have each : List.Forall₂ (fun e e' => e = e' ∧ e.matcher.Indifferent) elements elements :=
    List.forall₂_same.mpr fun e member => ⟨rfl, indifferent e member⟩
  refine .map (.thread each ?_ alike) fun _ _ related => related
  rintro e _ ⟨rfl, matcher⟩ b b' alike
  refine (matcher _ _ _ _ b b' (.refl _) ?_ alike).map fun _ _ related => related
  split
  · rfl
  · exact same

theorem alike_matchCompound (impartial : ev.Impartial) (headIndifferent : (search ev head).Indifferent)
    (free : ∀ e ∈ elements, e.pattern.compared?.all Term.isTruthFree = true)
    (indifferent : ∀ e ∈ elements, e.matcher.Indifferent) (whole : Bool)
    (same : t.canonical = t'.canonical) (alike : b.Alike b') :
    Search.Alike Match.Alike (matchCompound ev head (search ev head) elements whole t b)
      (matchCompound ev head (search ev head) elements whole t' b') := by
  have sequence : t.isSequence = t'.isSequence := Term.eq_of_canonical Term.isSequence_canonical same
  refine .ite (by rw [sequence]) (fun _ => Search.alike_done) (.append ?_ ?_)
  · exact alike_matchApplication impartial headIndifferent free indifferent whole same alike
  · refine .ite Iff.rfl (fun oneIdentity => ?_) Search.alike_done
    have declared : head.attributes ev ≠ {} := by
      intro none
      rw [none] at oneIdentity
      cases oneIdentity
    obtain ⟨name, rfl, other⟩ := symbol_of_attributes impartial declared
    exact alike_matchLone (Term.isTruthFree_symbol other) indifferent same alike

theorem default?_canonical (impartial : ev.Impartial) (inline : Option Term) (place : Option Place) :
    default? ev inline (place.map Place.canonical) = default? ev inline place := by
  cases place with
  | none => rfl
  | some place =>
    obtain ⟨head, position, count⟩ := place
    cases head with
    | boolean b =>
      simp [default?, Place.defaultKeys, Place.canonical, canonical, Term.symbol?, impartial.defaultValue]
    | _ => rfl

theorem alike_defaultValue (impartial : ev.Impartial) (inline : Option Term) {place place' : Option Place}
    (same : place.map Place.canonical = place'.map Place.canonical) :
    Search.Alike (fun v v' => v.canonical = v'.canonical) (defaultValue ev inline place)
      (defaultValue ev inline place') := by
  have eq : default? ev inline place = default? ev inline place' := by
    rw [← default?_canonical impartial, same, default?_canonical impartial]
  unfold defaultValue
  rw [eq]
  cases default? ev inline place' with
  | none => exact .nil
  | some value => exact Search.alike_one rfl

theorem alike_valueOf (impartial : ev.Impartial) (inner : Pattern) {place place' : Option Place}
    (places : place.map Place.canonical = place'.map Place.canonical) (same : t.canonical = t'.canonical) :
    Search.Alike (fun v v' => v.canonical = v'.canonical) (valueOf ev inner place t)
      (valueOf ev inner place' t') := by
  unfold valueOf
  cases inner.optionalDefault? with
  | none => exact Search.alike_one same
  | some inline =>
    refine .ite ?_ (fun _ => alike_defaultValue impartial inline places) (Search.alike_one same)
    rw [Term.eq_of_canonical Term.isEmptySequence_canonical same]

theorem headFits_canonical {head : Option Term} (free : head.all Term.isTruthFree = true) (t : Term) :
    headFits head t.canonical = headFits head t := by
  cases head with
  | none => rfl
  | some h => exact Term.isHeadedBy_canonical free t

theorem indifferent_searchAny {ps : List Pattern} (each : ∀ p ∈ ps, (search ev p).Indifferent) :
    (searchAny ev ps).Indifferent := by
  intro c c' t t' b b' context same alike
  induction ps with
  | nil => exact Search.alike_done
  | cons p ps ih =>
    exact (each p (by simp) c c' t t' b b' context same alike).append
      (ih fun q member => each q (by simp [member]))

/-- What a lenient pattern finds does not depend on how truth values are spelled. -/
theorem Lenient.indifferent (impartial : ev.Impartial) {p : Pattern} (h : p.Lenient) :
    (search ev p).Indifferent := by
  induction h with
  | @wildcard head span free =>
    intro c c' t t' b b' context same alike
    have items : t.items.map canonical = t'.items.map canonical := by
      rw [← Term.items_canonical, same, Term.items_canonical]
    have fits : headFits head ∘ canonical = headFits head := funext (headFits_canonical free)
    have all : t.items.all (headFits head) = t'.items.all (headFits head) := by
      rw [← fits, ← List.all_map, items, List.all_map]
    cases span with
    | one =>
      have sequence : t.isSequence = t'.isSequence := Term.eq_of_canonical Term.isSequence_canonical same
      have alone : headFits head t = headFits head t' := Term.eq_of_canonical (headFits_canonical free) same
      exact .ite (by rw [sequence, alone]) (fun _ => Search.alike_one alike) Search.alike_done
    | many =>
      have empty : t.items.isEmpty = t'.items.isEmpty := by simpa using congrArg List.isEmpty items
      exact .ite (by rw [empty, all]) (fun _ => Search.alike_one alike) Search.alike_done
    | any => exact .ite (by rw [all]) (fun _ => Search.alike_one alike) Search.alike_done
  | @named inner name _ ih =>
    intro c c' t t' b b' context same alike
    refine (alike_valueOf impartial inner context.place same).bind fun v _ v' value => ?_
    have bound := alike name
    cases eq : b.get? name with
    | none =>
      rw [eq] at bound
      rw [Option.map_eq_none_iff.mp bound.symm]
      exact ih c c' t t' _ _ context same (alike.bind name value)
    | some w =>
      rw [eq] at bound
      obtain ⟨w', eq', spelled⟩ := Option.map_eq_some_iff.mp bound.symm
      rw [eq']
      exact .ite (by rw [Term.same_congr spelled.symm value])
        (fun _ => ih c c' t t' b b' context same alike) Search.alike_done
  | optional inline _ ih =>
    intro c c' t t' b b' context same alike
    refine .bind (.ite ?_ (fun _ => alike_defaultValue impartial inline context.place)
      (Search.alike_one same)) fun v _ v' value => ih {} {} v v' b b' (.refl _) value alike
    rw [Term.eq_of_canonical Term.isEmptySequence_canonical same]
  | alternatives _ ih => exact indifferent_searchAny ih
  | except _ _ excluded_ih ih =>
    intro c c' t t' b b' context same alike
    exact (excluded_ih c c' t t' b b' context same alike).barring
      (ih c c' t t' b b' context same alike)
  | verbatim v | literal v =>
    intro c c' t t' b b' context same alike
    exact .ite (by rw [Term.same_congr rfl same]) (fun _ => Search.alike_one alike) Search.alike_done
  | hold _ ih => exact ih
  | repeated least most _ ih =>
    intro c c' t t' b b' context same alike
    have items : t.items.map canonical = t'.items.map canonical := by
      rw [← Term.items_canonical, same, Term.items_canonical]
    have length : t.items.length = t'.items.length := by simpa using congrArg List.length items
    refine .ite (by rw [length]) (fun _ => ?_) Search.alike_done
    refine .map (.thread (Search.forall₂_of_map_eq items) ?_ alike) fun _ _ related => related
    intro item item' same b b' alike
    exact (ih {} {} item item' b b' (.refl _) same alike).map fun _ _ related => related
  | compound _ _ free head_ih ih =>
    intro c c' t t' b b' context same alike
    rw [search, search, context.whole]
    refine alike_matchCompound impartial head_ih (fun e member => ?_) (fun e member => ?_) c'.whole same alike
    · exact free _ (mem_elementsFrom member).1
    · obtain ⟨inElements, eq⟩ := mem_elementsFrom member
      exact eq ▸ ih _ inElements

/-- Terms that are the same have the same matches, one by one, but for the spelling of values. -/
theorem Lenient.allMatches_alike (impartial : ev.Impartial) {p : Pattern} (lenient : p.Lenient)
    (same : t.same t' = true) (j : Journal) :
    List.Forall₂ Bindings.Alike (p.allMatches ev t j).1 (p.allMatches ev t' j).1 := by
  have found : Search.Alike Match.Alike (search ev p {} t .empty) (search ev p {} t' .empty) :=
    lenient.indifferent impartial {} {} t t' .empty .empty (.refl _) (Term.same_iff.mp same).2 fun _ => rfl
  rw [allMatches_eq, allMatches_eq, lenient.explicit.answers_solutions, lenient.explicit.answers_solutions,
    List.forall₂_map_left_iff, List.forall₂_map_right_iff]
  exact found

theorem Lenient.isMatch_eq_of_same (impartial : ev.Impartial) {p : Pattern} (lenient : p.Lenient)
    (same : t.same t' = true) (j : Journal) : (p.isMatch ev t j).1 = (p.isMatch ev t' j).1 := by
  have length := (lenient.allMatches_alike impartial same j).length_eq
  rw [isMatch_eq, isMatch_eq]
  congr 1
  rw [Bool.eq_iff_iff, List.isEmpty_iff_length_eq_zero, List.isEmpty_iff_length_eq_zero, length]

end Pattern

/-- A lenient pattern matches both or neither of two terms that are the same. -/
theorem matchQ_of_same {ev : Evaluator} (impartial : ev.Impartial) {pattern : Term} {p : Pattern}
    (reads : Pattern.compile pattern = .ok p) (lenient : p.Lenient) {t u : Term} (same : t.same u = true)
    (j : Journal) :
    ∃ answer, (matchQ ev pattern t j).1 = .ok answer ∧ (matchQ ev pattern u j).1 = .ok answer := by
  have answered (t : Term) : (matchQ ev pattern t j).1 = .ok (p.isMatch ev t j.forget).1 := by
    unfold matchQ
    rw [reads]
    rfl
  refine ⟨_, answered t, ?_⟩
  rw [answered u, lenient.isMatch_eq_of_same impartial same]

/-- `f[True, true]` matches `f[x_, True | x_]`, and so does `f[true, true]`. -/
theorem matchQ_of_same_alternatives :
    (matchQ .bare (.call "f" [.call "Pattern" [.symbol "x", .call "Blank" []],
        .call "Alternatives" [.symbol "True", .call "Pattern" [.symbol "x", .call "Blank" []]]])
        (.call "f" [.symbol "True", .boolean true]) {}).1 = .ok true ∧
      (matchQ .bare (.call "f" [.call "Pattern" [.symbol "x", .call "Blank" []],
        .call "Alternatives" [.symbol "True", .call "Pattern" [.symbol "x", .call "Blank" []]]])
        (.call "f" [.boolean true, .boolean true]) {}).1 = .ok true := by
  have compiled : Pattern.compile (.call "f" [.call "Pattern" [.symbol "x", .call "Blank" []],
      .call "Alternatives" [.symbol "True", .call "Pattern" [.symbol "x", .call "Blank" []]]]) =
        .ok (.compound (.literal (.symbol "f")) [.named "x" (.wildcard .one none),
          .alternatives [.literal (.symbol "True"), .named "x" (.wildcard .one none)]]) := rfl
  have x : Pattern.Lenient (.named "x" (.wildcard .one none)) := .named "x" (.wildcard .one rfl)
  have choice : Pattern.Lenient (.alternatives [.literal (.symbol "True"), .named "x" (.wildcard .one none)]) :=
    .alternatives (List.forall_mem_cons.mpr ⟨.literal _, List.forall_mem_singleton.mpr x⟩)
  have impartial : Evaluator.bare.Impartial := ⟨fun _ => rfl, fun _ _ _ => rfl⟩
  have same : (Term.call "f" [.symbol "True", .boolean true]).same
      (.call "f" [.boolean true, .boolean true]) = true := by decide
  obtain ⟨answer, first, second⟩ := matchQ_of_same impartial compiled
    (.compound (.literal _) (List.forall_mem_cons.mpr ⟨x, List.forall_mem_singleton.mpr choice⟩) (by decide))
    same {}
  obtain rfl : answer = true := Except.ok.inj first.symm
  exact ⟨first, second⟩

/-- The argument `True` of a pattern is compared by structure beforehand, and that tells the other
spelling of it apart. -/
theorem matchQ_spelling :
    (Term.call "f" [.symbol "True"]).same (.call "f" [.boolean true]) = true ∧
      (matchQ .bare (.call "f" [.symbol "True"]) (.call "f" [.symbol "True"]) {}).1 = .ok true ∧
      (matchQ .bare (.call "f" [.symbol "True"]) (.call "f" [.boolean true]) {}).1 = .ok false :=
  ⟨by decide, rfl, rfl⟩

end TermRewriting
