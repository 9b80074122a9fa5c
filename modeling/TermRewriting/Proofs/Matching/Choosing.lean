import TermRewriting.Pattern.Match
import TermRewriting.Proofs.Search.Values

/-! Matching with another way to choose. How an element chooses among the arguments is left open
here; everything else is as in matching. What a match is reached through does not count, only what
it binds. -/

namespace TermRewriting

namespace Search

variable {α : Type} {β : Bindings}

def Reaches (s : Search Match) (β : Bindings) : Prop := ∃ m ∈ s.values, m.bindings = β

@[simp] theorem reaches_done : (done : Search Match).Reaches β ↔ False := by simp [Reaches]

@[simp] theorem reaches_one (m : Match) : (one m).Reaches β ↔ m.bindings = β := by simp [Reaches]

theorem reaches_ite (c : Prop) [Decidable c] (s : Search Match) :
    (if c then s else .done).Reaches β ↔ c ∧ s.Reaches β := by
  split
  · next h => simp [h]
  · next h => simp [h]

theorem reaches_append (s : Search Match) (t : Unit → Search Match) :
    (s.append t).Reaches β ↔ s.Reaches β ∨ (t ()).Reaches β := by
  simp [Reaches, or_and_right, exists_or]

theorem reaches_bind (s : Search α) (f : α → Search Match) :
    (s.bind f).Reaches β ↔ ∃ a ∈ s.values, (f a).Reaches β := by
  simp only [Reaches, values_bind, List.mem_flatMap]
  constructor
  · rintro ⟨m, ⟨a, member, found⟩, eq⟩
    exact ⟨a, member, m, found, eq⟩
  · rintro ⟨a, member, m, found, eq⟩
    exact ⟨m, ⟨a, member, found⟩, eq⟩

theorem reaches_bind_bindings (s : Search Match) (f : Bindings → Search Match) :
    (s.bind fun m => f m.bindings).Reaches β ↔ ∃ γ, s.Reaches γ ∧ (f γ).Reaches β := by
  rw [reaches_bind]
  constructor
  · rintro ⟨m, found, reached⟩
    exact ⟨m.bindings, ⟨m, found, rfl⟩, reached⟩
  · rintro ⟨_, ⟨m, found, rfl⟩, reached⟩
    exact ⟨m, found, reached⟩

theorem reaches_map_left (left : Match → Leftover) (s : Search Match) :
    (s.map fun m => { m with left := left m }).Reaches β ↔ s.Reaches β := by
  simp only [Reaches, values_map, List.mem_map]
  constructor
  · rintro ⟨_, ⟨m, found, rfl⟩, eq⟩
    exact ⟨m, found, eq⟩
  · rintro ⟨m, found, eq⟩
    exact ⟨_, ⟨m, found, rfl⟩, eq⟩

theorem reaches_map_bindings (s : Search Bindings) :
    (s.map fun b => (⟨b, {}⟩ : Match)).Reaches β ↔ β ∈ s.values := by
  simp only [Reaches, values_map, List.mem_map]
  constructor
  · rintro ⟨_, ⟨b, member, rfl⟩, rfl⟩
    exact member
  · exact fun member => ⟨⟨β, {}⟩, ⟨β, member, rfl⟩, rfl⟩

theorem mem_values_bindings (s : Search Match) : β ∈ (s.map (·.bindings)).values ↔ s.Reaches β := by
  simp only [Reaches, values_map, List.mem_map]

theorem reaches_filter (holds : Bindings → Bool) (s : Search Match) :
    (s.filter fun m => holds m.bindings).Reaches β ↔ s.Reaches β ∧ holds β = true := by
  simp only [Reaches, values_filter, List.mem_filter]
  constructor
  · rintro ⟨m, ⟨found, kept⟩, rfl⟩
    exact ⟨⟨m, found, rfl⟩, kept⟩
  · rintro ⟨⟨m, found, rfl⟩, kept⟩
    exact ⟨m, ⟨found, kept⟩, rfl⟩

end Search

namespace Element

variable {μ : Type}

def matchedBy (matcher : Pattern → μ) (e : Element Unit) : Element μ :=
  ⟨e.pattern, e.position, matcher e.pattern⟩

theorem inOrder_map (matcher : Pattern → μ) (orderless : Bool) (places : List (Element Unit)) :
    inOrder orderless (places.map (matchedBy matcher)) = (inOrder orderless places).map (matchedBy matcher) := by
  cases orderless with
  | false => rfl
  | true =>
    simp only [inOrder, byRank, if_true, List.flatMap_cons, List.flatMap_nil, List.append_nil, List.map_append,
      List.filter_map, Function.comp_def, matchedBy]

end Element

def Pattern.places (position : Nat) : List Pattern → List (Element Unit)
  | [] => []
  | p :: ps => ⟨p, position, ()⟩ :: places (position + 1) ps

theorem Pattern.map_pattern_places (position : Nat) (ps : List Pattern) :
    (places position ps).map (·.pattern) = ps := by
  induction ps generalizing position with
  | nil => rfl
  | cons p ps ih => rw [places, List.map_cons, ih]

/-- A way for an element to choose among the arguments that are left. -/
abbrev Chooser :=
  Siblings → Pattern → (first last : Bool) → List Term → Bindings → Search (Split Term)

namespace Siblings

variable (choose : Chooser)

def distributeBy (s : Siblings) :
    (first : Bool) → List (Element Matcher) → List Term → Bindings → Search Match
  | _, [], items, b => if s.whole && !items.isEmpty then .done else .one ⟨b, ⟨[], items⟩⟩
  | first, e :: later, items, b =>
    (choose s e.pattern first later.isEmpty items b).bind fun split =>
    (s.presentations e.pattern split.chosen).bind fun t =>
    (e.matcher ⟨some ⟨s.head, e.position, s.count⟩, true⟩ t b).bind fun m =>
    (distributeBy s false later split.after m.bindings).map fun rest =>
      { rest with left := ⟨split.before, rest.left.after⟩ }

def matchAllBy (s : Siblings) (elements : List (Element Matcher)) (b : Bindings) : Search Match :=
  let elements := Element.inOrder s.attributes.orderless elements
  distributeBy choose { s with whole := s.whole || elements.isEmpty } true elements s.args b

theorem distributeBy_splits (s : Siblings) (first : Bool) (elements : List (Element Matcher))
    (items : List Term) (b : Bindings) :
    s.distributeBy splits first elements items b = s.distribute first elements items b := by
  induction elements generalizing first items b with
  | nil => rfl
  | cons e later ih => simp only [distributeBy, distribute, ih]

variable {choose}

/-- An element, matched with what it is presented of its choice, reaches these bindings and leaves
these arguments for the later ones. -/
def Takes (choose : Chooser) (s : Siblings) (e : Element Matcher) (first last : Bool) (items : List Term)
    (b γ : Bindings) (after : List Term) : Prop :=
  ∃ split ∈ (choose s e.pattern first last items b).values,
    ∃ t ∈ (s.presentations e.pattern split.chosen).values,
      (e.matcher ⟨some ⟨s.head, e.position, s.count⟩, true⟩ t b).Reaches γ ∧ split.after = after

theorem reaches_distributeBy_nil {s : Siblings} {first : Bool} {items : List Term} {b β : Bindings} :
    (s.distributeBy choose first [] items b).Reaches β ↔ (s.whole = true → items = []) ∧ b = β := by
  rw [distributeBy]
  by_cases whole : s.whole = true <;> by_cases empty : items = [] <;> simp [whole, empty]

theorem reaches_distributeBy_cons {s : Siblings} {first : Bool} {e : Element Matcher}
    {later : List (Element Matcher)} {items : List Term} {b β : Bindings} :
    (s.distributeBy choose first (e :: later) items b).Reaches β ↔
      ∃ γ after, s.Takes choose e first later.isEmpty items b γ after ∧
        (s.distributeBy choose false later after γ).Reaches β := by
  simp only [distributeBy, Search.reaches_bind, Search.reaches_map_left]
  constructor
  · rintro ⟨split, inChoices, t, presented, m, matched, reached⟩
    exact ⟨m.bindings, split.after, ⟨split, inChoices, t, presented, ⟨m, matched, rfl⟩, rfl⟩, reached⟩
  · rintro ⟨γ, after, ⟨split, inChoices, t, presented, ⟨m, matched, rfl⟩, rfl⟩, reached⟩
    exact ⟨split, inChoices, t, presented, m, matched, reached⟩

end Siblings

namespace Pattern

variable (ev : Evaluator) (choose : Chooser)

def matchApplicationBy (headMatcher : Matcher) (elements : List (Element Matcher))
    (attributes : Attributes) (whole : Bool) (t : Term) (b : Bindings) : Search Match :=
  match t with
  | .app h args =>
    if attributes.flat || (totalWidth (elements.map (·.pattern))).admits args.length then
      (headMatcher {} h b).bind fun m =>
        Siblings.matchAllBy choose ⟨h, args, attributes, elements.length, whole || !attributes.flat⟩
          elements m.bindings
    else .done
  | _ => .done

def matchCompoundBy (head : Pattern) (headMatcher : Matcher) (elements : List (Element Matcher))
    (whole : Bool) (t : Term) (b : Bindings) : Search Match :=
  let attributes := head.attributes ev
  if t.isSequence && head.symbol? != some "Sequence" then .done
  else
    (matchApplicationBy choose headMatcher elements attributes whole t b).append fun _ =>
    if attributes.oneIdentity then matchLone head.literal? elements t b else .done

theorem matchCompoundBy_splits (head : Pattern) (headMatcher : Matcher)
    (elements : List (Element Matcher)) (whole : Bool) (t : Term) (b : Bindings) :
    matchCompoundBy ev Siblings.splits head headMatcher elements whole t b =
      matchCompound ev head headMatcher elements whole t b := by
  have application : matchApplicationBy Siblings.splits headMatcher elements (head.attributes ev) whole t b =
      matchApplication headMatcher elements (head.attributes ev) whole t b := by
    cases t with
    | app h args =>
      simp only [matchApplicationBy, matchApplication, Siblings.matchAllBy, Siblings.matchAll,
        Siblings.distributeBy_splits]
    | _ => rfl
  simp only [matchCompoundBy, matchCompound, application]

mutual

@[grind =]
def searchBy : Pattern → Matcher
  | .named name inner, c, t, b =>
    (valueOf ev inner c.place t).bind fun value =>
      match b.get? name with
      | some bound => if bound.same value then searchBy inner c t b else .done
      | none => searchBy inner c t (b.bind name value)
  | .optional inner inline, c, t, b =>
    (if t.isEmptySequence then defaultValue ev inline c.place else .one t).bind fun value =>
      searchBy inner {} value b
  | .alternatives choices, c, t, b => searchAnyBy choices c t b
  | .except excluded fallback, c, t, b =>
    (searchBy excluded c t b).barring fun _ => searchBy fallback c t b
  | .hold inner, c, t, b => searchBy inner c t b
  | .test inner predicate, c, t, b =>
    let verdict := Thunk.mk fun _ => testHolds ev predicate t
    (searchBy inner { c with whole := true } t b).filter fun _ => verdict.get
  | .condition inner guard, c, t, b =>
    (searchBy inner c t b).filter fun m => (ev.evaluate (guard.substitute m.bindings)).isTrue
  | .repeated inner least most, _, t, b =>
    if Width.admits ⟨least, most⟩ t.items.length then
      (Search.thread (fun b item => (searchBy inner {} item b).map (·.bindings)) t.items b).map
        (⟨·, {}⟩)
    else .done
  | .compound head elements, c, t, b =>
    matchCompoundBy ev choose head (searchBy head) (elementsFromBy 1 elements) c.whole t b
  | .wildcard span head, c, t, b => search ev (.wildcard span head) c t b
  | .verbatim v, c, t, b => search ev (.verbatim v) c t b
  | .options cell explicit, c, t, b => search ev (.options cell explicit) c t b
  | .literal v, c, t, b => search ev (.literal v) c t b

@[grind =]
def searchAnyBy : List Pattern → Matcher
  | [], _, _, _ => .done
  | p :: ps, c, t, b => (searchBy p c t b).append fun _ => searchAnyBy ps c t b

@[grind =]
def elementsFromBy (position : Nat) : List Pattern → List (Element Matcher)
  | [] => []
  | p :: ps => ⟨p, position, searchBy p⟩ :: elementsFromBy (position + 1) ps

end

section

variable {ev : Evaluator} {ps : List Pattern}

theorem searchAnyBy_splits_of (each : ∀ p ∈ ps, searchBy ev Siblings.splits p = search ev p) :
    searchAnyBy ev Siblings.splits ps = searchAny ev ps := by
  funext c t b
  induction ps with
  | nil => rfl
  | cons p ps ih =>
    rw [searchAnyBy, searchAny, each p (by simp), ih fun q member => each q (by simp [member])]

theorem elementsFromBy_splits_of (each : ∀ p ∈ ps, searchBy ev Siblings.splits p = search ev p)
    (position : Nat) : elementsFromBy ev Siblings.splits position ps = elementsFrom ev position ps := by
  induction ps generalizing position with
  | nil => rfl
  | cons p ps ih =>
    rw [elementsFromBy, elementsFrom, each p (by simp), ih fun q member => each q (by simp [member])]

end

theorem searchBy_splits (p : Pattern) : searchBy ev Siblings.splits p = search ev p := by
  induction p using Pattern.induct with
  | alternatives choices ih =>
    funext c t b
    rw [searchBy, search, searchAnyBy_splits_of ih]
  | compound head elements head_ih ih =>
    funext c t b
    rw [searchBy, search, elementsFromBy_splits_of ih, head_ih, matchCompoundBy_splits]
  | except excluded fallback excluded_ih fallback_ih =>
    funext c t b
    rw [searchBy, search, excluded_ih, fallback_ih]
  | named name inner ih =>
    funext c t b
    have step (value : Term) : (match b.get? name with
          | some bound => if bound.same value then search ev inner c t b else .done
          | none => search ev inner c t (b.bind name value)) =
        match b.get? name with
          | some bound => if bound.same value then searchBy ev Siblings.splits inner c t b else .done
          | none => searchBy ev Siblings.splits inner c t (b.bind name value) := by
      rw [ih]
    exact congrArg _ (funext step).symm
  | optional inner inline ih | hold inner ih | test inner predicate ih
  | condition inner guard ih | repeated inner least most ih =>
    funext c t b
    simp only [searchBy, search, ih]
  | wildcard | verbatim | options | literal =>
    funext c t b
    rw [searchBy]

theorem elementsFromBy_splits (position : Nat) (ps : List Pattern) :
    elementsFromBy ev Siblings.splits position ps = elementsFrom ev position ps :=
  elementsFromBy_splits_of (fun p _ => searchBy_splits ev p) position

theorem elementsFromBy_eq_map (position : Nat) (ps : List Pattern) :
    elementsFromBy ev choose position ps =
      (places position ps).map (Element.matchedBy (searchBy ev choose)) := by
  induction ps generalizing position with
  | nil => rfl
  | cons p ps ih => rw [elementsFromBy, ih, places, List.map_cons]; rfl

theorem map_pattern_elementsFromBy (position : Nat) (ps : List Pattern) :
    (elementsFromBy ev choose position ps).map (·.pattern) = ps := by
  induction ps generalizing position with
  | nil => rfl
  | cons p ps ih => rw [elementsFromBy, List.map_cons, ih]

section

variable {ev : Evaluator} {choose : Chooser} {c : Context} {t : Term} {b β : Bindings}

theorem reaches_named {x : String} {inner : Pattern} :
    (searchBy ev choose (.named x inner) c t b).Reaches β ↔
      ∃ value ∈ (valueOf ev inner c.place t).values,
        (∃ bound, b.get? x = some bound ∧ bound.same value = true ∧ (searchBy ev choose inner c t b).Reaches β) ∨
          b.get? x = none ∧ (searchBy ev choose inner c t (b.bind x value)).Reaches β := by
  rw [searchBy, Search.reaches_bind]
  refine exists_congr fun value => and_congr_right fun _ => ?_
  cases b.get? x with
  | none => simp
  | some bound => simp [Search.reaches_ite]

theorem reaches_optional {inner : Pattern} {inline : Option Term} :
    (searchBy ev choose (.optional inner inline) c t b).Reaches β ↔
      ∃ value ∈ (if t.isEmptySequence then defaultValue ev inline c.place else .one t).values,
        (searchBy ev choose inner {} value b).Reaches β := by
  rw [searchBy, Search.reaches_bind]

theorem reaches_alternatives {choices : List Pattern} :
    (searchBy ev choose (.alternatives choices) c t b).Reaches β ↔
      ∃ p ∈ choices, (searchBy ev choose p c t b).Reaches β := by
  rw [searchBy]
  induction choices with
  | nil => simp [searchAnyBy]
  | cons p ps ih => simp [searchAnyBy, Search.reaches_append, ih]

theorem reaches_except {excluded fallback : Pattern} :
    (searchBy ev choose (.except excluded fallback) c t b).Reaches β ↔
      (¬∃ γ, (searchBy ev choose excluded c t b).Reaches γ) ∧ (searchBy ev choose fallback c t b).Reaches β := by
  rw [searchBy, Search.Reaches, Search.values_barring]
  have none : (searchBy ev choose excluded c t b).values.isEmpty = true ↔
      ¬∃ γ, (searchBy ev choose excluded c t b).Reaches γ := by
    simp [Search.Reaches, List.isEmpty_iff, List.eq_nil_iff_forall_not_mem]
  split
  · next empty => exact ⟨fun reached => ⟨none.mp empty, reached⟩, And.right⟩
  · next found =>
    refine ⟨?_, fun both => absurd (none.mpr both.1) found⟩
    rintro ⟨m, member, -⟩
    cases member

theorem reaches_test {inner : Pattern} {predicate : Term} :
    (searchBy ev choose (.test inner predicate) c t b).Reaches β ↔
      (searchBy ev choose inner { c with whole := true } t b).Reaches β ∧ testHolds ev predicate t = true := by
  rw [searchBy]
  exact Search.reaches_filter (fun _ => testHolds ev predicate t) _

theorem reaches_condition {inner : Pattern} {guard : Term} :
    (searchBy ev choose (.condition inner guard) c t b).Reaches β ↔
      (searchBy ev choose inner c t b).Reaches β ∧ (ev.evaluate (guard.substitute β)).isTrue = true := by
  rw [searchBy]
  exact Search.reaches_filter (fun β => (ev.evaluate (guard.substitute β)).isTrue) _

theorem reaches_repeated {inner : Pattern} {least : Nat} {most : Option Nat} :
    (searchBy ev choose (.repeated inner least most) c t b).Reaches β ↔
      Width.admits ⟨least, most⟩ t.items.length = true ∧
        β ∈ (Search.thread (fun b item => (searchBy ev choose inner {} item b).map (·.bindings))
          t.items b).values := by
  rw [searchBy, Search.reaches_ite, Search.reaches_map_bindings]

theorem reaches_compound {head : Pattern} {elements : List Pattern} :
    (searchBy ev choose (.compound head elements) c t b).Reaches β ↔
      (t.isSequence && head.symbol? != some "Sequence") = false ∧
        ((∃ h args γ, t = .app h args ∧
            ((head.attributes ev).flat || (totalWidth elements).admits args.length) = true ∧
            (searchBy ev choose head {} h b).Reaches γ ∧
            (Siblings.matchAllBy choose ⟨h, args, head.attributes ev, elements.length,
              c.whole || !(head.attributes ev).flat⟩ (elementsFromBy ev choose 1 elements) γ).Reaches β) ∨
          (head.attributes ev).oneIdentity = true ∧
            (matchLone head.literal? (elementsFromBy ev choose 1 elements) t b).Reaches β) := by
  have count : (elementsFromBy ev choose 1 elements).length = elements.length := by
    rw [← List.length_map (·.pattern), map_pattern_elementsFromBy]
  have application :
      (matchApplicationBy choose (searchBy ev choose head) (elementsFromBy ev choose 1 elements)
        (head.attributes ev) c.whole t b).Reaches β ↔
      ∃ h args γ, t = .app h args ∧
        ((head.attributes ev).flat || (totalWidth elements).admits args.length) = true ∧
        (searchBy ev choose head {} h b).Reaches γ ∧
        (Siblings.matchAllBy choose ⟨h, args, head.attributes ev, elements.length,
          c.whole || !(head.attributes ev).flat⟩ (elementsFromBy ev choose 1 elements) γ).Reaches β := by
    cases t with
    | app h args =>
      rw [matchApplicationBy, map_pattern_elementsFromBy, count, Search.reaches_ite,
        Search.reaches_bind_bindings _ fun γ => Siblings.matchAllBy choose _ _ γ]
      constructor
      · rintro ⟨admits, γ, inHead, reached⟩
        exact ⟨h, args, γ, rfl, admits, inHead, reached⟩
      · rintro ⟨_, _, γ, ⟨⟩, admits, inHead, reached⟩
        exact ⟨admits, γ, inHead, reached⟩
    | _ => simp [matchApplicationBy]
  rw [searchBy, matchCompoundBy]
  cases apart : t.isSequence && head.symbol? != some "Sequence" with
  | true => simp
  | false =>
    rw [if_neg Bool.false_ne_true, Search.reaches_append, application, Search.reaches_ite]
    simp only [true_and]

end

end Pattern

end TermRewriting
