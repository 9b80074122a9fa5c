import TermRewriting.Proofs.Matching.Kept
import TermRewriting.Proofs.Matching.Relocation
import TermRewriting.Proofs.Matching.Visit
import TermRewriting.Proofs.Search.Parallel

/-! Matching in parallel. Two patterns of one shape whose parts run in parallel, from related bindings to
related bindings, do so themselves; for each kind of pattern that is one lemma here. A pattern runs in
parallel to itself with its cells somewhere else. -/

namespace TermRewriting

/-- What an application can see of an element pattern before it is matched. -/
structure Outline where
  width : Width
  isWildcard : Bool
  rank : Nat
  default? : Option (Option Term)
  head? : Option Term
  name? : Option String
  mayMatch : Term → Bool

namespace Pattern

/-- The one head of the applications that the pattern matches, if it has been written out. -/
def literalHead? : Pattern → Option Term
  | .compound head _ => head.literal?
  | _ => none

def name? : Pattern → Option String
  | .named name _ => some name
  | _ => none

def outline (p : Pattern) : Outline :=
  ⟨p.width, p.isWildcard, p.rank, p.optionalDefault?, p.literalHead?, p.name?, fun t => p.mayMatch t⟩

theorem outline_relocate (f : Position → Position) (p : Pattern) : (p.relocate f).outline = p.outline := by
  have head : (p.relocate f).literalHead? = p.literalHead? := by
    cases p <;> simp only [relocate, literalHead?, literal?_relocate]
  have name : (p.relocate f).name? = p.name? := by cases p <;> simp only [relocate, name?]
  simp only [outline, width_relocate, isWildcard_relocate, rank_relocate, optionalDefault?_relocate, head, name,
    mayMatch_relocate]

theorem mem_names_of_name? {p : Pattern} {x : String} (h : p.name? = some x) : x ∈ p.names := by
  cases p with
  | named y inner =>
    obtain rfl := Option.some.inj h
    exact List.mem_cons_self
  | _ => cases h

end Pattern

namespace Siblings

variable {s : Siblings} {p p' : Pattern} {b b' : Bindings}

theorem flattens_eq (s : Siblings) (p : Pattern) :
    s.flattens p = (s.attributes.flat && (p.isWildcard || p.literalHead?.any (· == s.head))) := by
  cases p with
  | compound head _ => cases head <;> rfl
  | _ => rfl

theorem boundTo?_eq (b : Bindings) (p : Pattern) : boundTo? b p = p.name?.bind b.get? := by
  cases p <;> rfl

theorem splits_congr (same : p.outline = p'.outline) (bound : ∀ x, p.name? = some x → b.get? x = b'.get? x)
    (s : Siblings) (first last : Bool) (items : List Term) :
    s.splits p first last items b = s.splits p' first last items b' := by
  obtain ⟨width, wildcard, -, -, head, name, mayMatch⟩ := Outline.mk.inj same
  have fits : s.fits p = s.fits p' := by
    funext t
    rw [fits, fits, flattens_eq, flattens_eq, wildcard, head, congrFun mayMatch t]
  have value : boundTo? b p = boundTo? b' p' := by
    rw [boundTo?_eq, boundTo?_eq, ← name]
    cases eq : p.name? with
    | none => rfl
    | some x => exact bound x eq
  rw [splits, splits, fits, value, most, most, width, wildcard]

theorem presentations_congr (same : p.outline = p'.outline) (s : Siblings) :
    s.presentations p = s.presentations p' := by
  obtain ⟨width, wildcard, -, -, head, -, -⟩ := Outline.mk.inj same
  have flattens : s.flattens p = s.flattens p' := by rw [flattens_eq, flattens_eq, wildcard, head]
  funext chosen
  unfold presentations
  rw [width, flattens]

end Siblings

def Match.Related (R : Bindings → Bindings → Prop) (m m' : Match) : Prop :=
  R m.bindings m'.bindings ∧ m.left = m'.left

/-- From bindings related by `R`, the matchers run in parallel to bindings related by `Q`. -/
def Matcher.Parallel (C : Position → Position → Prop) (R Q : Bindings → Bindings → Prop)
    (matcher matcher' : Matcher) : Prop :=
  ∀ c t b b', R b b' → Search.Parallel C (Match.Related Q) (matcher c t b) (matcher' c t b')

/-- Elements that take the same shares of the arguments and run in parallel on them. -/
structure Element.Parallel (C : Position → Position → Prop) (attributes : Attributes)
    (R Q : Bindings → Bindings → Prop) (e e' : Element Matcher) : Prop where
  position : e.position = e'.position
  width : e.pattern.width = e'.pattern.width
  rank : attributes.orderless = true → e.pattern.rank = e'.pattern.rank
  optional : e.pattern.isOptional = e'.pattern.isOptional
  splits : ∀ s : Siblings, s.attributes = attributes → ∀ first last items b b', R b b' →
    s.splits e.pattern first last items b = s.splits e'.pattern first last items b'
  presentations : ∀ s : Siblings, s.attributes = attributes → ∀ first last items b b', R b b' →
    ∀ split ∈ (s.splits e.pattern first last items b).values,
      s.presentations e.pattern split.chosen = s.presentations e'.pattern split.chosen
  matcher : e.matcher.Parallel C R Q e'.matcher

inductive Element.Chain (C : Position → Position → Prop) (attributes : Attributes)
    (Q : Bindings → Bindings → Prop) :
    (Bindings → Bindings → Prop) → List (Element Matcher) → List (Element Matcher) → Prop
  | nil {R : Bindings → Bindings → Prop} : (∀ b b', R b b' → Q b b') → Chain C attributes Q R [] []
  | cons {R M : Bindings → Bindings → Prop} {e e' : Element Matcher} {later later' : List (Element Matcher)} :
    Element.Parallel C attributes R M e e' → Chain C attributes Q M later later' →
      Chain C attributes Q R (e :: later) (e' :: later')

variable {C : Position → Position → Prop} {R M Q : Bindings → Bindings → Prop}

theorem Matcher.Parallel.imp {R' Q' : Bindings → Bindings → Prop} {matcher matcher' : Matcher}
    (h : Matcher.Parallel C R Q matcher matcher') (before : ∀ b b', R' b b' → R b b')
    (after : ∀ b b', Q b b' → Q' b b') : Matcher.Parallel C R' Q' matcher matcher' :=
  fun c t b b' related => (h c t b b' (before b b' related)).imp fun _ _ matched => ⟨after _ _ matched.1, matched.2⟩

theorem Element.Chain.length_eq {attributes : Attributes} {elements elements' : List (Element Matcher)}
    (chain : Chain C attributes Q R elements elements') : elements.length = elements'.length := by
  induction chain with
  | nil => rfl
  | cons _ _ ih => simp only [List.length_cons, ih]

theorem Element.Chain.imp {attributes : Attributes} {Q' : Bindings → Bindings → Prop}
    {elements elements' : List (Element Matcher)} (chain : Chain C attributes Q R elements elements')
    (after : ∀ b b', Q b b' → Q' b b') : Chain C attributes Q' R elements elements' := by
  induction chain with
  | nil imp => exact .nil fun b b' related => after b b' (imp b b' related)
  | cons first _ ih => exact .cons first ih

theorem Element.Chain.filter_optional {attributes : Attributes} {elements elements' : List (Element Matcher)}
    (chain : Chain C attributes Q R elements elements') :
    ((elements.map (·.pattern)).filter fun p => !p.isOptional).length =
      ((elements'.map (·.pattern)).filter fun p => !p.isOptional).length := by
  induction chain with
  | nil => rfl
  | cons first _ ih =>
    simp only [List.map_cons, List.filter_cons, first.optional]
    split <;> simp [ih]

theorem Element.Chain.totalWidth {attributes : Attributes} {elements elements' : List (Element Matcher)}
    (chain : Chain C attributes Q R elements elements') :
    Pattern.totalWidth (elements.map (·.pattern)) = Pattern.totalWidth (elements'.map (·.pattern)) := by
  induction chain with
  | nil => rfl
  | @cons _ _ e e' later later' first _ ih =>
    change e.pattern.width.add (Pattern.totalWidth (later.map (·.pattern))) =
      e'.pattern.width.add (Pattern.totalWidth (later'.map (·.pattern)))
    rw [first.width, ih]

namespace Siblings

theorem parallel_distribute {s : Siblings} {attributes : Attributes} (under : s.attributes = attributes)
    {elements elements' : List (Element Matcher)} (chain : Element.Chain C attributes Q R elements elements')
    (first : Bool) (items : List Term) {b b' : Bindings} (related : R b b') :
    Search.Parallel C (Match.Related Q) (s.distribute first elements items b)
      (s.distribute first elements' items b') := by
  induction chain generalizing first items b b' with
  | nil imp => exact .ite Iff.rfl (fun _ => .done) fun _ => Search.parallel_one ⟨imp _ _ related, rfl⟩
  | @cons R M e e' later later' parallel chain ih =>
    have last : later.isEmpty = later'.isEmpty := by
      rw [Bool.eq_iff_iff, List.isEmpty_iff_length_eq_zero, List.isEmpty_iff_length_eq_zero, chain.length_eq]
    have closed : (s.splits e.pattern first later.isEmpty items b).Closed :=
      Search.closed_iff_asksOnly.mpr (asksOnly_splits ..)
    have splits := (Search.parallel_of_closed (C := C) closed (R := Eq) fun _ => rfl).and_all
      (Search.all_of_closed closed fun split member => member)
    simp only [distribute]
    rw [← last, ← parallel.splits s under first later.isEmpty items b b' related]
    refine splits.bind fun split _ both => ?_
    obtain ⟨rfl, found⟩ := both
    rw [← parallel.presentations s under first later.isEmpty items b b' related split found, ← parallel.position]
    refine (Search.parallel_of_closed (R := Eq) (Search.closed_iff_asksOnly.mpr (asksOnly_presentations ..))
      fun _ => rfl).bind fun t _ same => ?_
    subst same
    refine (parallel.matcher _ t b b' related).bind fun m m' matched => ?_
    refine (ih false split.after matched.1).map fun rest rest' found => ⟨found.1, ?_⟩
    rw [found.2]

theorem parallel_matchAll {s : Siblings} {elements elements' : List (Element Matcher)}
    (chain : Element.Chain C s.attributes Q R (Element.inOrder s.attributes.orderless elements)
      (Element.inOrder s.attributes.orderless elements')) {b b' : Bindings} (related : R b b') :
    Search.Parallel C (Match.Related Q) (s.matchAll elements b) (s.matchAll elements' b') := by
  have empty : (Element.inOrder s.attributes.orderless elements).isEmpty =
      (Element.inOrder s.attributes.orderless elements').isEmpty := by
    rw [Bool.eq_iff_iff, List.isEmpty_iff_length_eq_zero, List.isEmpty_iff_length_eq_zero, chain.length_eq]
  simp only [matchAll, ← empty]
  exact parallel_distribute (by rfl) chain true s.args related

end Siblings

namespace Pattern

variable {ev : Evaluator}

section

variable {head head' : Pattern} {headMatcher headMatcher' : Matcher} {elements elements' : List (Element Matcher)}
  {t : Term} {b b' : Bindings}

theorem parallel_inTurn {attributes : Attributes} (chain : Element.Chain C attributes Q R elements elements')
    (h : Term) (count : Nat) (related : R b b') :
    Search.Parallel C Q
      (Search.thread (fun b e => (e.matcher ⟨some ⟨h, e.position, count⟩, true⟩
        (if e.pattern.isOptional then .sequence [] else t) b).map (·.bindings)) elements b)
      (Search.thread (fun b e => (e.matcher ⟨some ⟨h, e.position, count⟩, true⟩
        (if e.pattern.isOptional then .sequence [] else t) b).map (·.bindings)) elements' b') := by
  induction chain generalizing b b' with
  | nil imp => exact Search.parallel_one (imp _ _ related)
  | cons parallel _ ih =>
    simp only [Search.thread, ← parallel.position, ← parallel.optional]
    exact .bind (.map (parallel.matcher _ _ b b' related) fun _ _ matched => matched.1) fun _ _ matched => ih matched

theorem parallel_matchLone {attributes : Attributes} (chain : Element.Chain C attributes Q R elements elements')
    (symbol : Option Term) (related : R b b') :
    Search.Parallel C (Match.Related Q) (matchLone symbol elements t b) (matchLone symbol elements' t b') := by
  cases symbol with
  | none => exact .done
  | some h =>
    have alone : standsAlone h (elements.map (·.pattern)) t = standsAlone h (elements'.map (·.pattern)) t := by
      simp only [standsAlone, chain.filter_optional, List.length_map, chain.length_eq]
    simp only [matchLone, alone, chain.length_eq]
    exact .ite Iff.rfl (fun _ => .done) fun _ =>
      (parallel_inTurn chain h elements'.length related).map fun _ _ related => ⟨related, rfl⟩

theorem parallel_matchCompound (literal : head.literal? = head'.literal?)
    (headRuns : headMatcher.Parallel C R M headMatcher')
    (inOrder : Element.Chain C (head.attributes ev) Q M
      (Element.inOrder (head.attributes ev).orderless elements)
      (Element.inOrder (head.attributes ev).orderless elements'))
    (inTurn : Element.Chain C (head.attributes ev) Q R elements elements') (whole : Bool) (related : R b b') :
    Search.Parallel C (Match.Related Q) (matchCompound ev head headMatcher elements whole t b)
      (matchCompound ev head' headMatcher' elements' whole t b') := by
  have symbol : head'.symbol? = head.symbol? := by rw [symbol?, symbol?, literal]
  have attributes : head'.attributes ev = head.attributes ev := by rw [Pattern.attributes, symbol, Pattern.attributes]
  simp only [matchCompound, symbol, attributes, ← literal]
  refine .ite Iff.rfl (fun _ => .done) fun _ => .append ?_ ?_
  · cases t with
    | app h args =>
      refine .ite (by rw [inTurn.totalWidth]) (fun _ => ?_) fun _ => .done
      refine (headRuns {} h b b' related).bind fun m m' matched => ?_
      rw [inTurn.length_eq]
      exact Siblings.parallel_matchAll inOrder matched.1
    | _ => exact .done
  · exact .ite Iff.rfl (fun _ => parallel_matchLone inTurn _ related) fun _ => .done

end

section

variable {inner inner' : Pattern}

theorem parallel_wildcard (imp : ∀ b b', R b b' → Q b b') (span : Span) (head : Option Term) :
    Matcher.Parallel C R Q (search ev (.wildcard span head)) (search ev (.wildcard span head)) := by
  intro c t b b' related
  cases span <;>
    exact .ite Iff.rfl (fun _ => Search.parallel_one ⟨imp b b' related, rfl⟩) fun _ => .done

theorem parallel_verbatim (imp : ∀ b b', R b b' → Q b b') (v : Term) :
    Matcher.Parallel C R Q (search ev (.verbatim v)) (search ev (.verbatim v)) :=
  fun _ _ b b' related => .ite Iff.rfl (fun _ => Search.parallel_one ⟨imp b b' related, rfl⟩) fun _ => .done

theorem parallel_literal (imp : ∀ b b', R b b' → Q b b') (v : Term) :
    Matcher.Parallel C R Q (search ev (.literal v)) (search ev (.literal v)) :=
  fun _ _ b b' related => .ite Iff.rfl (fun _ => Search.parallel_one ⟨imp b b' related, rfl⟩) fun _ => .done

theorem parallel_valueOf (default : inner.optionalDefault? = inner'.optionalDefault?) (place : Option Place)
    (t : Term) : Search.Parallel C Eq (valueOf ev inner place t) (valueOf ev inner' place t) := by
  have closed : (valueOf ev inner place t).Closed := Search.closed_iff_asksOnly.mpr (asksOnly_valueOf ..)
  have same : valueOf ev inner' place t = valueOf ev inner place t := by rw [valueOf, valueOf, default]
  rw [same]
  exact Search.parallel_of_closed closed fun _ => rfl

theorem parallel_named {x : String} (default : inner.optionalDefault? = inner'.optionalDefault?)
    (get? : ∀ b b', R b b' → b.get? x = b'.get? x)
    (bind : ∀ b b' v, R b b' → b.get? x = none → R (b.bind x v) (b'.bind x v))
    (runs : Matcher.Parallel C R Q (search ev inner) (search ev inner')) :
    Matcher.Parallel C R Q (search ev (.named x inner)) (search ev (.named x inner')) := by
  intro c t b b' related
  refine (parallel_valueOf default c.place t).bind fun value _ same => ?_
  subst same
  rw [← get? b b' related]
  cases free : b.get? x with
  | none => exact runs c t _ _ (bind b b' value related free)
  | some bound => exact .ite Iff.rfl (fun _ => runs c t b b' related) fun _ => .done

theorem parallel_optional (default : Option Term)
    (runs : Matcher.Parallel C R Q (search ev inner) (search ev inner')) :
    Matcher.Parallel C R Q (search ev (.optional inner default)) (search ev (.optional inner' default)) := by
  intro c t b b' related
  have value : Search.Parallel C Eq (if t.isEmptySequence then defaultValue ev default c.place else .one t)
      (if t.isEmptySequence then defaultValue ev default c.place else .one t) := by
    refine .ite Iff.rfl (fun _ => ?_) fun _ => Search.parallel_one rfl
    exact Search.parallel_of_closed (Search.closed_iff_asksOnly.mpr (asksOnly_defaultValue ..)) fun _ => rfl
  refine value.bind fun value _ same => ?_
  subst same
  exact runs {} value b b' related

theorem parallel_alternatives {choices choices' : List Pattern}
    (runs : List.Forall₂ (fun p p' => Matcher.Parallel C R Q (search ev p) (search ev p')) choices choices') :
    Matcher.Parallel C R Q (search ev (.alternatives choices)) (search ev (.alternatives choices')) := by
  intro c t b b' related
  simp only [search]
  induction runs with
  | nil => exact .done
  | cons first _ ih => exact (first c t b b' related).append ih

theorem parallel_except {excluded excluded' : Pattern} {M : Bindings → Bindings → Prop}
    (probe : Matcher.Parallel C R M (search ev excluded) (search ev excluded'))
    (runs : Matcher.Parallel C R Q (search ev inner) (search ev inner')) :
    Matcher.Parallel C R Q (search ev (.except excluded inner)) (search ev (.except excluded' inner')) :=
  fun c t b b' related => (probe c t b b' related).barring (runs c t b b' related)

theorem parallel_test (predicate : Term)
    (runs : Matcher.Parallel C R Q (search ev inner) (search ev inner')) :
    Matcher.Parallel C R Q (search ev (.test inner predicate)) (search ev (.test inner' predicate)) :=
  fun c t b b' related => (runs { c with whole := true } t b b' related).filter fun _ _ _ => rfl

theorem parallel_condition {guard : Term}
    (substitute : ∀ b b', Q b b' → guard.substitute b = guard.substitute b')
    (runs : Matcher.Parallel C R Q (search ev inner) (search ev inner')) :
    Matcher.Parallel C R Q (search ev (.condition inner guard)) (search ev (.condition inner' guard)) := by
  refine fun c t b b' related => (runs c t b b' related).filter fun m m' matched => ?_
  rw [substitute _ _ matched.1]

theorem parallel_repeated (least : Nat) (most : Option Nat)
    (runs : Matcher.Parallel C R R (search ev inner) (search ev inner')) :
    Matcher.Parallel C R R (search ev (.repeated inner least most)) (search ev (.repeated inner' least most)) := by
  intro c t b b' related
  refine .ite Iff.rfl (fun _ => ?_) fun _ => .done
  refine .map (.thread (T := Eq) (List.forall₂_eq_eq_eq ▸ rfl) ?_ related) fun _ _ related => ⟨related, rfl⟩
  rintro item _ rfl b b' related
  exact (runs {} item b b' related).map fun _ _ matched => matched.1

theorem parallel_options {cell cell' : Position} (cells : C cell cell')
    (bindOptions : ∀ b b' options, R b b' → Q (b.bindOptions options) (b'.bindOptions options))
    (explicit : Option Term) :
    Matcher.Parallel C R Q (search ev (.options cell explicit)) (search ev (.options cell' explicit)) := by
  intro c t b b' related
  have options : Search.Parallel C Eq (defaultOptions ev cell explicit c.place)
      (defaultOptions ev cell' explicit c.place) := by
    cases explicit with
    | some defaults => exact Search.parallel_one rfl
    | none => exact .inherit _ cells fun _ => Search.parallel_one rfl
  refine options.bind fun options _ same => ?_
  subst same
  cases Options.passAll? options t.items with
  | none => exact .done
  | some passed => exact Search.parallel_one ⟨bindOptions b b' passed related, rfl⟩

end

theorem forall₂_elementsFrom_both {T : Element Matcher → Element Matcher → Prop} {ps ps' : List Pattern}
    (each : List.Forall₂ (fun p p' => ∀ i, T ⟨p, i, search ev p⟩ ⟨p', i, search ev p'⟩) ps ps') (position : Nat) :
    List.Forall₂ T (elementsFrom ev position ps) (elementsFrom ev position ps') := by
  induction each generalizing position with
  | nil => exact .nil
  | cons first _ ih => exact .cons (first position) (ih (position + 1))

end Pattern

theorem Element.parallel_of_outline {ev : Evaluator} {p p' : Pattern} (same : p.outline = p'.outline)
    (bound : ∀ x, p.name? = some x → ∀ b b', R b b' → b.get? x = b'.get? x)
    (runs : Matcher.Parallel C R Q (p.search ev) (p'.search ev)) (attributes : Attributes) (i : Nat) :
    Element.Parallel C attributes R Q ⟨p, i, p.search ev⟩ ⟨p', i, p'.search ev⟩ where
  position := rfl
  width := congrArg Outline.width same
  rank _ := congrArg Outline.rank same
  optional := congrArg Option.isSome (congrArg Outline.default? same)
  splits s _ first last items b b' related :=
    Siblings.splits_congr same (fun x name => bound x name b b' related) s first last items
  presentations s _ _ _ _ _ _ _ split _ := congrFun (Siblings.presentations_congr same s) split.chosen
  matcher := runs

theorem Element.chain_of_forall₂ {attributes : Attributes} {elements elements' : List (Element Matcher)}
    (each : List.Forall₂ (Element.Parallel C attributes R R) elements elements') :
    Element.Chain C attributes R R elements elements' := by
  induction each with
  | nil => exact .nil fun _ _ related => related
  | cons first _ ih => exact .cons first ih

/-- Elements that run in parallel as they are, but for the one at position `k`: that one runs in parallel
only from what `R` relates, and only to what `Q` relates. -/
def Element.AllBut (C : Position → Position → Prop) (attributes : Attributes)
    (R Q : Bindings → Bindings → Prop) (k : Nat) (elements elements' : List (Element Matcher)) : Prop :=
  List.Forall₂ (fun e e' => e.position = k ∧ Element.Parallel C attributes R Q e e' ∨
    Element.Parallel C attributes R R e e' ∧ Element.Parallel C attributes Q Q e e') elements elements'

theorem Element.AllBut.chain_later {attributes : Attributes} {k : Nat} {elements elements' : List (Element Matcher)}
    (each : AllBut C attributes R Q k elements elements') (apart : k ∉ elements.map (·.position)) :
    Chain C attributes Q Q elements elements' := by
  induction each with
  | nil => exact .nil fun _ _ related => related
  | @cons e _ _ _ first _ ih =>
    rw [List.map_cons, List.mem_cons, not_or] at apart
    exact .cons (first.resolve_left fun here => apart.1 here.1.symm).2 (ih apart.2)

theorem Element.AllBut.chain {attributes : Attributes} (imp : ∀ b b', R b b' → Q b b') {k : Nat}
    {elements elements' : List (Element Matcher)} (each : AllBut C attributes R Q k elements elements')
    (positions : (elements.map (·.position)).Nodup) : Chain C attributes Q R elements elements' := by
  induction each with
  | nil => exact .nil imp
  | cons first rest ih =>
    obtain ⟨apart, positions⟩ := List.nodup_cons.mp positions
    rcases first with ⟨rfl, once⟩ | ⟨before, -⟩
    · exact .cons once (AllBut.chain_later rest apart)
    · exact .cons before (ih positions)

theorem Element.AllBut.inOrder {attributes : Attributes} {k : Nat} {elements elements' : List (Element Matcher)}
    (each : AllBut C attributes R Q k elements elements') :
    AllBut C attributes R Q k (Element.inOrder attributes.orderless elements)
      (Element.inOrder attributes.orderless elements') := by
  refine Element.forall₂_inOrder (fun orderless e e' related => ?_) each
  rcases related with ⟨-, parallel⟩ | ⟨parallel, -⟩
  · exact parallel.rank orderless
  · exact parallel.rank orderless

namespace Pattern

mutual

def guards : Pattern → List Term
  | .condition inner guard => guard :: inner.guards
  | .named _ inner | .optional inner _ | .hold inner | .test inner _ | .repeated inner _ _ => inner.guards
  | .alternatives choices => guardsOfAll choices
  | .except excluded fallback => excluded.guards ++ fallback.guards
  | .compound head elements => head.guards ++ guardsOfAll elements
  | .wildcard _ _ | .verbatim _ | .options _ _ | .literal _ => []

def guardsOfAll : List Pattern → List Term
  | [] => []
  | p :: ps => p.guards ++ guardsOfAll ps

end

theorem mem_guardsOfAll {ps : List Pattern} {guard : Term} :
    guard ∈ guardsOfAll ps ↔ ∃ p ∈ ps, guard ∈ p.guards := by
  induction ps with
  | nil => simp [guardsOfAll]
  | cons p ps ih => simp [guardsOfAll, ih]

theorem guardsOfAll_eq_nil {ps : List Pattern} : guardsOfAll ps = [] ↔ ∀ p ∈ ps, p.guards = [] := by
  simp only [List.eq_nil_iff_forall_not_mem, mem_guardsOfAll, not_exists, not_and]
  exact ⟨fun h p member guard => h guard p member, fun h guard p member => h p member guard⟩

end Pattern

/-- Related bindings have the same values for these variables and give these guards the same meaning, and
stay related when one of these variables or an option is bound. -/
structure Bindings.Congruence (names : List String) (guards : List Term)
    (R : Bindings → Bindings → Prop) : Prop where
  get? : ∀ x ∈ names, ∀ b b', R b b' → b.get? x = b'.get? x
  bind : ∀ x ∈ names, ∀ b b' v, R b b' → R (b.bind x v) (b'.bind x v)
  bindOption : ∀ b b' x v, R b b' → R (b.bindOption x v) (b'.bindOption x v)
  substitute : ∀ guard ∈ guards, ∀ b b', R b b' → guard.substitute b = guard.substitute b'

namespace Bindings.Congruence

variable {names names' : List String} {guards guards' : List Term}

theorem mono (h : Congruence names guards R) (subNames : names' ⊆ names) (subGuards : guards' ⊆ guards) :
    Congruence names' guards' R where
  get? x member := h.get? x (subNames member)
  bind x member := h.bind x (subNames member)
  bindOption := h.bindOption
  substitute guard member := h.substitute guard (subGuards member)

theorem bindOptions (h : Congruence names guards R) (b b' : Bindings) (options : Options) (related : R b b') :
    R (b.bindOptions options) (b'.bindOptions options) := by
  induction options generalizing b b' with
  | nil => exact related
  | cons entry options ih => exact ih _ _ (h.bindOption b b' entry.1 entry.2 related)

theorem eq (names : List String) (guards : List Term) : Congruence names guards Eq where
  get? _ _ _ _ same := congrArg (Bindings.get? · _) same
  bind _ _ _ _ _ same := congrArg (Bindings.bind · _ _) same
  bindOption _ _ _ _ same := congrArg (Bindings.bindOption · _ _) same
  substitute guard _ _ _ same := congrArg (Term.substitute · guard) same

end Bindings.Congruence

namespace Pattern

variable {ev : Evaluator} {f : Position → Position}

theorem parallel_relocate {p : Pattern} (cells : ∀ entry ∈ p.optionPatterns, C entry.1 (f entry.1))
    (congruence : Bindings.Congruence p.names p.guards R) :
    Matcher.Parallel C R R (search ev p) (search ev (p.relocate f)) := by
  induction p using Pattern.induct with
  | wildcard span head => exact parallel_wildcard (fun _ _ related => related) span head
  | named x inner ih =>
    refine parallel_named (optionalDefault?_relocate inner).symm
      (congruence.get? x List.mem_cons_self) (fun b b' v related _ => ?_) (ih cells ?_)
    · exact congruence.bind x List.mem_cons_self b b' v related
    · exact congruence.mono (List.subset_cons_self ..) (List.Subset.refl _)
  | optional inner default ih => exact parallel_optional default (ih cells congruence)
  | alternatives choices ih =>
    rw [relocate, relocateAll_eq_map]
    refine parallel_alternatives (List.forall₂_map_right_iff.mpr (List.forall₂_same.mpr fun p member => ?_))
    refine ih p member (fun entry inside => cells entry (mem_optionPatternsOfAll.mpr ⟨p, member, inside⟩))
      (congruence.mono (fun x named => ?_) fun guard inside => ?_)
    · exact mem_namesOfAll.mpr ⟨p, member, named⟩
    · exact mem_guardsOfAll.mpr ⟨p, member, inside⟩
  | except excluded fallback excluded_ih fallback_ih =>
    refine parallel_except (excluded_ih (fun entry member => cells entry (List.mem_append_left _ member)) ?_)
      (fallback_ih (fun entry member => cells entry (List.mem_append_right _ member)) ?_)
    · exact congruence.mono (List.subset_append_left ..) (List.subset_append_left ..)
    · exact congruence.mono (List.subset_append_right ..) (List.subset_append_right ..)
  | verbatim v => exact parallel_verbatim (fun _ _ related => related) v
  | hold inner ih => exact ih cells congruence
  | test inner predicate ih => exact parallel_test predicate (ih cells congruence)
  | condition inner guard ih =>
    refine parallel_condition (congruence.substitute guard List.mem_cons_self) (ih cells ?_)
    exact congruence.mono (List.Subset.refl _) (List.subset_cons_self ..)
  | repeated inner least most ih => exact parallel_repeated least most (ih cells congruence)
  | options cell defaults =>
    exact parallel_options (cells (cell, defaults) List.mem_cons_self) congruence.bindOptions defaults
  | compound head elements head_ih ih =>
    have headRuns : Matcher.Parallel C R R (search ev head) (search ev (head.relocate f)) :=
      head_ih (fun entry member => cells entry (List.mem_append_left _ member))
        (congruence.mono (List.subset_append_left ..) (List.subset_append_left ..))
    have each (p : Pattern) (member : p ∈ elements) (attributes : Attributes) (i : Nat) :
        Element.Parallel C attributes R R ⟨p, i, search ev p⟩ ⟨p.relocate f, i, search ev (p.relocate f)⟩ := by
      have inElements : Bindings.Congruence p.names p.guards R := congruence.mono
        (fun x named => List.mem_append_right _ (mem_namesOfAll.mpr ⟨p, member, named⟩))
        fun guard inside => List.mem_append_right _ (mem_guardsOfAll.mpr ⟨p, member, inside⟩)
      refine Element.parallel_of_outline (outline_relocate f p).symm
        (fun x name => inElements.get? x (mem_names_of_name? name)) (ih p member (fun entry inside => ?_) inElements) ..
      exact cells entry (List.mem_append_right _ (mem_optionPatternsOfAll.mpr ⟨p, member, inside⟩))
    have pairs : List.Forall₂ (Element.Parallel C (head.attributes ev) R R) (elementsFrom ev 1 elements)
        (elementsFrom ev 1 (relocateAll f elements)) := by
      rw [relocateAll_eq_map]
      exact forall₂_elementsFrom_both (List.forall₂_map_right_iff.mpr (List.forall₂_same.mpr fun p member i =>
        each p member _ i)) 1
    have inOrder := Element.forall₂_inOrder (fun orderless _ _ parallel => parallel.rank orderless) pairs
    intro c t b b' related
    exact parallel_matchCompound (literal?_relocate head).symm headRuns (Element.chain_of_forall₂ inOrder)
      (Element.chain_of_forall₂ pairs) c.whole related
  | literal v => exact parallel_literal (fun _ _ related => related) v

end Pattern

end TermRewriting
