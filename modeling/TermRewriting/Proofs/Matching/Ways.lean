import TermRewriting.Proofs.Matching.Row
import TermRewriting.Proofs.Matching.Strategy
import TermRewriting.Proofs.Search.Inheriting

/-! Ways through a pattern. Every match has gone one way: one of each alternatives, the fallback of each
exclusion, the head and the elements of each compound pattern once, with the terms that these stand for.
Options that a pattern inherits were kept before, or were declared where the pattern has been tried. -/

namespace TermRewriting

/-- The first list is a share of the second: a run of its items, or any of them if order is free. -/
def IsShare {α : Type} (free : Bool) (xs ys : List α) : Prop :=
  ∃ before after, Rearranged free (before ++ xs ++ after) ys

theorem IsShare.refl {α : Type} (free : Bool) (xs : List α) : IsShare free xs xs :=
  ⟨[], [], by simpa using Rearranged.refl free xs⟩

theorem IsShare.trans {α : Type} {free : Bool} {xs ys zs : List α} (inner : IsShare free xs ys)
    (outer : IsShare free ys zs) : IsShare free xs zs := by
  obtain ⟨before, after, inside⟩ := inner
  obtain ⟨front, back, around⟩ := outer
  have spread := (((Rearranged.refl free front).append inside).append (.refl free back)).trans around
  exact ⟨front ++ before, after ++ back, by simpa only [List.append_assoc] using spread⟩

/-- What an element takes and what it leaves for later ones are shares of what it chooses from. -/
theorem Siblings.isShare_of_mem_splits {s : Siblings} {p : Pattern} {first last : Bool} {items : List Term}
    {b : Bindings} {split : Split Term} (h : split ∈ (s.splits p first last items b).values) :
    IsShare s.attributes.orderless split.chosen items ∧ IsShare s.attributes.orderless split.after items := by
  have order := (rearranged_of_mem_splits h).1
  exact ⟨⟨split.before, split.after, order⟩, ⟨split.before ++ split.chosen, [], by rwa [List.append_nil]⟩⟩

namespace Pattern

variable {ev : Evaluator}

def siblings (ev : Evaluator) (head : Pattern) (elements : List Pattern) (whole : Bool) (h : Term)
    (args : List Term) : Siblings where
  head := h
  args := args
  attributes := head.attributes ev
  count := elements.length
  whole := whole || !(head.attributes ev).flat || elements.isEmpty

/-- The application may be matched by the head and the elements: it has a fitting number of arguments, and it
is no run of siblings unless the pattern asks for a sequence. -/
def Accepts (ev : Evaluator) (head : Pattern) (elements : List Pattern) (h : Term) (args : List Term) : Prop :=
  ((head.attributes ev).flat || (totalWidth elements).admits args.length) = true ∧
    ((Term.app h args).isSequence = true → head.symbol? = some "Sequence")

def under (h : Term) (count : Nat) (e : Element Unit) : Context := ⟨some ⟨h, e.position, count⟩, true⟩

/-- What the element stands for where a term stands alone under a head with one identity. -/
def aloneFor (t : Term) (e : Element Unit) : Term := if e.pattern.isOptional then .sequence [] else t

/-- The parts of a pattern that may be tried while it is matched with a term, each with its place and the
term on which it is tried. A part is on probation if all that counts is whether it excludes the term. -/
inductive Attempts (ev : Evaluator) (p : Pattern) (t : Term) :
    (probation : Bool) → Pattern → Context → Term → Prop
  | whole : Attempts ev p t false p {} t
  | named {probation : Bool} {x : String} {inner : Pattern} {c : Context} {u : Term} :
    Attempts ev p t probation (.named x inner) c u → Attempts ev p t probation inner c u
  | optional {probation : Bool} {inner : Pattern} {inline : Option Term} {c : Context} {u v : Term} :
    Attempts ev p t probation (.optional inner inline) c u →
      v ∈ (valueOf ev (.optional inner inline) c.place u).values → Attempts ev p t probation inner {} v
  | choice {probation : Bool} {choices : List Pattern} {q : Pattern} {c : Context} {u : Term} :
    Attempts ev p t probation (.alternatives choices) c u → q ∈ choices → Attempts ev p t probation q c u
  | excluded {probation : Bool} {excluded fallback : Pattern} {c : Context} {u : Term} :
    Attempts ev p t probation (.except excluded fallback) c u → Attempts ev p t true excluded c u
  | fallback {probation : Bool} {excluded fallback : Pattern} {c : Context} {u : Term} :
    Attempts ev p t probation (.except excluded fallback) c u → Attempts ev p t probation fallback c u
  | hold {probation : Bool} {inner : Pattern} {c : Context} {u : Term} :
    Attempts ev p t probation (.hold inner) c u → Attempts ev p t probation inner c u
  | test {probation : Bool} {inner : Pattern} {predicate : Term} {c : Context} {u : Term} :
    Attempts ev p t probation (.test inner predicate) c u →
      Attempts ev p t probation inner { c with whole := true } u
  | condition {probation : Bool} {inner : Pattern} {guard : Term} {c : Context} {u : Term} :
    Attempts ev p t probation (.condition inner guard) c u → Attempts ev p t probation inner c u
  | repeated {probation : Bool} {inner : Pattern} {least : Nat} {most : Option Nat} {c : Context}
    {u item : Term} :
    Attempts ev p t probation (.repeated inner least most) c u → item ∈ u.items →
      Attempts ev p t probation inner {} item
  | head {probation : Bool} {head : Pattern} {elements : List Pattern} {c : Context} {h : Term}
    {args : List Term} :
    Attempts ev p t probation (.compound head elements) c (.app h args) → Accepts ev head elements h args →
      Attempts ev p t probation head {} h
  | element {probation : Bool} {head : Pattern} {elements : List Pattern} {c : Context} {h v : Term}
    {args chosen : List Term} {e : Element Unit} :
    Attempts ev p t probation (.compound head elements) c (.app h args) → Accepts ev head elements h args →
      (∀ v, head = .literal v → v.same h = true) → e ∈ places 1 elements →
      IsShare (head.attributes ev).orderless chosen args →
      v ∈ ((siblings ev head elements c.whole h args).presentations e.pattern chosen).values →
      Attempts ev p t probation e.pattern (under h elements.length e) v
  | alone {probation : Bool} {head : Pattern} {elements : List Pattern} {c : Context} {h u : Term}
    {e : Element Unit} :
    Attempts ev p t probation (.compound head elements) c u → (head.attributes ev).oneIdentity = true →
      head.literal? = some h → standsAlone h elements u = true → e ∈ places 1 elements →
      Attempts ev p t probation e.pattern (under h elements.length e) (aloneFor u e)

/-- Options that a pattern asks for where it is tried: those declared for the head at that place. -/
def Asks (ev : Evaluator) (p : Pattern) (t : Term) (cell : Position) (declared : Options) : Prop :=
  ∃ probation c u, Attempts ev p t probation (.options cell none) c u ∧ declared = declaredAt ev c.place

/-- Options that a pattern inherits: those kept for it from before, or else those declared for the head at
a place where it is tried. -/
def Inherited (ev : Evaluator) (p : Pattern) (t : Term) (j : Journal) (cell : Position) (options : Options) :
    Prop :=
  match j.inherited.lookup cell with
  | some kept => options = kept
  | none => Asks ev p t cell options

/-- What a pattern for options comes to: its own defaults, or else inherited ones, with the options that the
term passes set in them. -/
def ComesTo (ev : Evaluator) (inherited : Position → Options → Prop) (cell : Position) (explicit : Option Term)
    (t : Term) (options : Options) : Prop :=
  ∃ defaults, Options.passAll? defaults t.items = some options ∧
    match explicit with
    | some listing => defaults = Options.declare ev.declaredOptions [] listing
    | none => inherited cell defaults

/-- What is still to be matched: a pattern with a term, patterns with a term each, or elements with the
arguments that are left. -/
inductive Task where
  | part (p : Pattern) (c : Context) (t : Term)
  | each (parts : List (Pattern × Context × Term))
  | elements (s : Siblings) (first : Bool) (es : List (Element Unit)) (items : List Term)

/-- One way through a task, from the bindings before it to those after it. -/
inductive Way (ev : Evaluator) (inherited : Position → Options → Prop) : Task → Bindings → Bindings → Prop
  | wildcard {span : Span} {head : Option Term} {c : Context} {t : Term} {b : Bindings} :
    span.width.admits t.items.length = true → t.items.all (headFits head) = true →
      Way ev inherited (.part (.wildcard span head) c t) b b
  | verbatim {v : Term} {c : Context} {t : Term} {b : Bindings} :
    v.same t = true → Way ev inherited (.part (.verbatim v) c t) b b
  | literal {v : Term} {c : Context} {t : Term} {b : Bindings} :
    v.same t = true → Way ev inherited (.part (.literal v) c t) b b
  | bound {x : String} {inner : Pattern} {c : Context} {t v w : Term} {b b' : Bindings} :
    b.get? x = some w → v ∈ (valueOf ev inner c.place t).values → w.same v = true →
      Way ev inherited (.part inner c t) b b' → Way ev inherited (.part (.named x inner) c t) b b'
  | free {x : String} {inner : Pattern} {c : Context} {t v : Term} {b b' : Bindings} :
    b.get? x = none → v ∈ (valueOf ev inner c.place t).values →
      Way ev inherited (.part inner c t) (b.bind x v) b' → Way ev inherited (.part (.named x inner) c t) b b'
  | optional {inner : Pattern} {inline : Option Term} {c : Context} {t v : Term} {b b' : Bindings} :
    v ∈ (valueOf ev (.optional inner inline) c.place t).values → Way ev inherited (.part inner {} v) b b' →
      Way ev inherited (.part (.optional inner inline) c t) b b'
  | alternatives {choices : List Pattern} {p : Pattern} {c : Context} {t : Term} {b b' : Bindings} :
    p ∈ choices → Way ev inherited (.part p c t) b b' → Way ev inherited (.part (.alternatives choices) c t) b b'
  | except {excluded fallback : Pattern} {c : Context} {t : Term} {b b' : Bindings} :
    Way ev inherited (.part fallback c t) b b' → Way ev inherited (.part (.except excluded fallback) c t) b b'
  | hold {inner : Pattern} {c : Context} {t : Term} {b b' : Bindings} :
    Way ev inherited (.part inner c t) b b' → Way ev inherited (.part (.hold inner) c t) b b'
  | test {inner : Pattern} {predicate : Term} {c : Context} {t : Term} {b b' : Bindings} :
    testHolds ev predicate t = true → Way ev inherited (.part inner { c with whole := true } t) b b' →
      Way ev inherited (.part (.test inner predicate) c t) b b'
  | condition {inner : Pattern} {guard : Term} {c : Context} {t : Term} {b b' : Bindings} :
    (ev.evaluate (guard.substitute b')).isTrue = true → Way ev inherited (.part inner c t) b b' →
      Way ev inherited (.part (.condition inner guard) c t) b b'
  | repeated {inner : Pattern} {least : Nat} {most : Option Nat} {c : Context} {t : Term} {b b' : Bindings} :
    Width.admits ⟨least, most⟩ t.items.length = true →
      Way ev inherited (.each (t.items.map fun item => (inner, {}, item))) b b' →
      Way ev inherited (.part (.repeated inner least most) c t) b b'
  | options {cell : Position} {explicit : Option Term} {options : Options} {c : Context} {t : Term}
    {b : Bindings} : ComesTo ev inherited cell explicit t options →
      Way ev inherited (.part (.options cell explicit) c t) b (b.bindOptions options)
  | compound {head : Pattern} {elements : List Pattern} {c : Context} {h : Term} {args : List Term}
    {b m b' : Bindings} :
    Accepts ev head elements h args → Way ev inherited (.part head {} h) b m →
      Way ev inherited (.elements (siblings ev head elements c.whole h args) true
        (Element.inOrder (head.attributes ev).orderless (places 1 elements)) args) m b' →
      Way ev inherited (.part (.compound head elements) c (.app h args)) b b'
  /-- Under a head with one identity, the head itself need not be there. -/
  | alone {head : Pattern} {elements : List Pattern} {c : Context} {h t : Term} {b b' : Bindings} :
    (head.attributes ev).oneIdentity = true → head.literal? = some h → standsAlone h elements t = true →
      Way ev inherited (.each ((places 1 elements).map fun e =>
        (e.pattern, under h elements.length e, aloneFor t e))) b b' →
      Way ev inherited (.part (.compound head elements) c t) b b'
  | finished {b : Bindings} : Way ev inherited (.each []) b b
  | next {p : Pattern} {c : Context} {t : Term} {parts : List (Pattern × Context × Term)} {b m b' : Bindings} :
    Way ev inherited (.part p c t) b m → Way ev inherited (.each parts) m b' →
      Way ev inherited (.each ((p, c, t) :: parts)) b b'
  | noElement {s : Siblings} {first : Bool} {items : List Term} {b : Bindings} :
    (s.whole = true → items = []) → Way ev inherited (.elements s first [] items) b b
  | element {s : Siblings} {first : Bool} {e : Element Unit} {later : List (Element Unit)} {items : List Term}
    {split : Split Term} {v : Term} {b m b' : Bindings} :
    split ∈ (s.splits e.pattern first later.isEmpty items b).values →
      v ∈ (s.presentations e.pattern split.chosen).values →
      Way ev inherited (.part e.pattern (under s.head s.count e) v) b m →
      Way ev inherited (.elements s false later split.after) m b' →
      Way ev inherited (.elements s first (e :: later) items) b b'

variable {B A : Position → Options → Prop} {p : Pattern} {t : Term}

theorem Way.same_literal {v h : Term} {c : Context} {b b' : Bindings}
    (way : Way ev A (.part (.literal v) c h) b b') : v.same h = true := by
  cases way with
  | literal same => exact same

theorem elementsFrom_eq_map_places (ev : Evaluator) (position : Nat) (ps : List Pattern) :
    elementsFrom ev position ps = (places position ps).map (Element.matchedBy (search ev)) := by
  induction ps generalizing position with
  | nil => rfl
  | cons p ps ih => rw [elementsFrom, ih, places, List.map_cons]; rfl

theorem allGiven_valueOf (inner : Pattern) (place : Option Place) (u : Term) :
    (valueOf ev inner place u).AllGiven B A fun v => v ∈ (valueOf ev inner place u).values :=
  Search.allGiven_of_closed (Search.closed_iff_asksOnly.mpr (asksOnly_valueOf ..)) fun _ => id

theorem allGiven_defaultOptions {cell : Position} {explicit : Option Term} (place : Option Place)
    (asks : explicit = none → B cell (declaredAt ev place)) :
    (defaultOptions ev cell explicit place).AllGiven B A fun defaults => match explicit with
      | some listing => defaults = Options.declare ev.declaredOptions [] listing
      | none => A cell defaults := by
  cases explicit with
  | some listing => exact Search.allGiven_one rfl
  | none => exact ⟨asks rfl, fun options given => Search.allGiven_one given⟩

/-- A wildcard takes as many siblings as it stands for, all with its head, and binds nothing. -/
theorem allGiven_wildcard (span : Span) (head : Option Term) (c : Context) (u : Term) (b : Bindings) :
    (search ev (.wildcard span head) c u b).AllGiven B A
      fun m => Way ev A (.part (.wildcard span head) c u) b m.bindings := by
  cases span with
  | one =>
    refine .ite (fun fits => Search.allGiven_one ?_) Search.allGiven_done
    obtain ⟨single, headed⟩ := (Bool.and_eq_true ..).mp fits
    have items : u.items = [u] := Term.items_eq_singleton (by simpa using single)
    exact .wildcard (by rw [items]; rfl) (by simpa [items] using headed)
  | many =>
    refine .ite (fun fits => Search.allGiven_one ?_) Search.allGiven_done
    obtain ⟨some, headed⟩ := (Bool.and_eq_true ..).mp fits
    have least : 1 ≤ u.items.length := List.length_pos_iff.mpr (by simpa using some)
    exact .wildcard (by simp [Span.width, Width.admits, least]) headed
  | any => exact .ite (fun headed => Search.allGiven_one (.wildcard rfl headed)) Search.allGiven_done

/-- Tried where it may be tried, the pattern asks for such options only, and goes a way through itself if
it is given such as are inherited. -/
def GoesWays (ev : Evaluator) (p : Pattern) (t : Term) (A : Position → Options → Prop) (q : Pattern) : Prop :=
  ∀ probation c u b, Attempts ev p t probation q c u →
    (search ev q c u b).AllGiven (Asks ev p t) A fun m => Way ev A (.part q c u) b m.bindings

theorem allGiven_searchAny {P : Match → Prop} {ps : List Pattern} {c : Context} {u : Term} {b : Bindings}
    (each : ∀ p ∈ ps, (search ev p c u b).AllGiven B A P) : (searchAny ev ps c u b).AllGiven B A P := by
  induction ps with
  | nil => exact Search.allGiven_done
  | cons p ps ih => exact (each p (by simp)).append (ih fun q member => each q (by simp [member]))

theorem allGiven_each {ι : Type} {step : Bindings → ι → Search Bindings} {is : List ι}
    (part : ι → Pattern × Context × Term)
    (goes : ∀ i ∈ is, ∀ b, (step b i).AllGiven B A (Way ev A (.part (part i).1 (part i).2.1 (part i).2.2) b))
    (b : Bindings) : (Search.thread step is b).AllGiven B A (Way ev A (.each (is.map part)) b) := by
  induction is generalizing b with
  | nil => exact Search.allGiven_one .finished
  | cons i is ih =>
    refine .bind ((goes i (by simp) b).imp fun m now => ?_)
    exact (ih (fun i member => goes i (by simp [member])) m).imp fun _ later => .next now later

theorem allGiven_distribute {s : Siblings} {es : List (Element Unit)} {args : List Term}
    (goes : ∀ e ∈ es, ∀ chosen v b, IsShare s.attributes.orderless chosen args →
      v ∈ (s.presentations e.pattern chosen).values → (search ev e.pattern (under s.head s.count e) v b).AllGiven B A
        fun m => Way ev A (.part e.pattern (under s.head s.count e) v) b m.bindings)
    (first : Bool) {items : List Term} (among : IsShare s.attributes.orderless items args) (b : Bindings) :
    (s.distribute first (es.map (Element.matchedBy (search ev))) items b).AllGiven B A
      fun m => Way ev A (.elements s first es items) b m.bindings := by
  induction es generalizing first items b with
  | nil =>
    by_cases whole : s.whole = true <;> by_cases empty : items = [] <;>
      simp [Siblings.distribute, whole, empty, Search.one, Search.AllGiven, Way.noElement]
  | cons e later ih =>
    have splits := Search.allGiven_of_closed (B := B) (A := A)
      (Siblings.splits_fromItems.closed s e.pattern first later.isEmpty items b) fun _ => id
    rw [List.map_cons, Siblings.distribute, List.isEmpty_map]
    refine .bind (splits.imp fun split chosen => ?_)
    obtain ⟨inChosen, inAfter⟩ := Siblings.isShare_of_mem_splits chosen
    have closed : (s.presentations e.pattern split.chosen).Closed :=
      Search.closed_iff_asksOnly.mpr (Siblings.asksOnly_presentations ..)
    refine .bind ((Search.allGiven_of_closed closed fun _ => id).imp fun v presented => ?_)
    have now := goes e (by simp) split.chosen v b (inChosen.trans among) presented
    refine .bind (now.imp fun m way => .map ?_)
    exact (ih (fun e member => goes e (by simp [member])) false (inAfter.trans among) m.bindings).imp
      fun _ rest => .element chosen presented way rest

theorem matchAll_elementsFrom (head : Pattern) (elements : List Pattern) (whole : Bool) (h : Term) (args : List Term)
    (b : Bindings) :
    Siblings.matchAll ⟨h, args, head.attributes ev, elements.length, whole || !(head.attributes ev).flat⟩
        (elementsFrom ev 1 elements) b =
      (siblings ev head elements whole h args).distribute true
        ((Element.inOrder (head.attributes ev).orderless (places 1 elements)).map (Element.matchedBy (search ev)))
        args b := by
  have empty : (Element.inOrder (head.attributes ev).orderless (places 1 elements)).isEmpty = elements.isEmpty := by
    rw [(Element.rearranged_inOrder ..).perm.isEmpty_eq]
    cases elements <;> rfl
  rw [Siblings.matchAll, elementsFrom_eq_map_places, Element.inOrder_map, List.isEmpty_map, empty]
  rfl

theorem pattern_mem_of_mem_places {elements : List Pattern} {e : Element Unit} (member : e ∈ places 1 elements) :
    e.pattern ∈ elements := by
  have mapped := List.mem_map_of_mem (f := (·.pattern)) member
  rwa [map_pattern_places] at mapped

theorem goesWays_compound {head : Pattern} {elements : List Pattern} (headGoes : GoesWays ev p t A head)
    (goes : ∀ q ∈ elements, GoesWays ev p t A q) : GoesWays ev p t A (.compound head elements) := by
  intro probation c u b attempted
  have application (apart : u.isSequence = true → head.symbol? = some "Sequence") :
      (matchApplication (search ev head) (elementsFrom ev 1 elements) (head.attributes ev) c.whole u b).AllGiven
        (Asks ev p t) A fun m => Way ev A (.part (.compound head elements) c u) b m.bindings := by
    unfold matchApplication
    split
    · next h args =>
      rw [map_pattern_elementsFrom, length_elementsFrom]
      refine .ite (fun fits => .bind ?_) Search.allGiven_done
      have accepts : Accepts ev head elements h args := ⟨fits, apart⟩
      refine (headGoes probation {} h b (attempted.head accepts)).imp fun m now => ?_
      have literal : ∀ v, head = .literal v → v.same h = true := by
        rintro v rfl
        exact now.same_literal
      rw [matchAll_elementsFrom]
      refine (allGiven_distribute (fun e member chosen v b among presented => ?_) true (.refl _ args) m.bindings).imp
        fun _ later => .compound accepts now later
      have inPlaces := Element.mem_inOrder member
      exact goes _ (pattern_mem_of_mem_places inPlaces) probation _ v b
        (attempted.element accepts literal inPlaces among presented)
    · exact Search.allGiven_done
  have lone (identity : (head.attributes ev).oneIdentity = true) :
      (matchLone head.literal? (elementsFrom ev 1 elements) u b).AllGiven (Asks ev p t) A
        fun m => Way ev A (.part (.compound head elements) c u) b m.bindings := by
    unfold matchLone
    split
    · exact Search.allGiven_done
    · next h literal =>
      rw [map_pattern_elementsFrom, length_elementsFrom, elementsFrom_eq_map_places, Search.thread_map]
      cases stands : standsAlone h elements u with
      | false => exact Search.allGiven_done
      | true =>
        refine .map ((allGiven_each (fun e => (e.pattern, under h elements.length e, aloneFor u e))
          (fun e member b => .map ?_) b).imp fun _ way => .alone identity literal stands way)
        exact goes _ (pattern_mem_of_mem_places member) probation _ _ b
          (attempted.alone identity literal stands member)
  rw [search, matchCompound]
  split
  · exact Search.allGiven_done
  · next apart =>
    refine (application fun sequence => ?_).append (.ite lone Search.allGiven_done)
    simpa [sequence] using apart

/-- The induction is on the pattern; which options are inherited is settled only when they are asked for. -/
theorem goesWays (q : Pattern) : GoesWays ev p t A q := by
  induction q using Pattern.induct with
  | wildcard span head => exact fun _ c u b _ => allGiven_wildcard span head c u b
  | named x inner ih =>
    intro probation c u b attempted
    rw [search]
    refine .bind ((allGiven_valueOf inner c.place u).imp fun v isValue => ?_)
    split
    · next w bound =>
      exact .ite (fun same => (ih probation c u b attempted.named).imp fun m way => .bound bound isValue same way)
        Search.allGiven_done
    · next free => exact (ih probation c u _ attempted.named).imp fun m way => .free free isValue way
  | optional inner inline ih =>
    intro probation c u b attempted
    rw [search]
    refine .bind ((allGiven_valueOf (.optional inner inline) c.place u).imp fun v isValue => ?_)
    exact (ih probation {} v b (attempted.optional isValue)).imp fun m way => .optional isValue way
  | alternatives choices ih =>
    intro probation c u b attempted
    refine allGiven_searchAny fun q member => ?_
    exact (ih q member probation c u b (attempted.choice member)).imp fun m way => .alternatives member way
  | except excluded fallback probe ih =>
    intro probation c u b attempted
    have inside := ih probation c u b attempted.fallback
    exact (probe true c u b attempted.excluded).barring (inside.imp fun m way => .except way)
  | verbatim v =>
    exact fun _ c u b _ => .ite (fun same => Search.allGiven_one (.verbatim same)) Search.allGiven_done
  | hold inner ih =>
    exact fun probation c u b attempted =>
      (ih probation c u b attempted.hold).imp fun m way => .hold way
  | test inner predicate ih =>
    intro probation c u b attempted
    exact ((ih probation _ u b attempted.test).filter _).imp fun m way => .test way.2 way.1
  | condition inner guard ih =>
    intro probation c u b attempted
    exact ((ih probation c u b attempted.condition).filter _).imp fun m way => .condition way.2 way.1
  | repeated inner least most ih =>
    intro probation c u b attempted
    refine .ite (fun admits => .map ?_) Search.allGiven_done
    refine (allGiven_each (fun item => (inner, {}, item)) (fun item member b => .map ?_) b).imp
      fun _ way => .repeated admits way
    exact ih probation {} item b (attempted.repeated member)
  | options cell explicit =>
    intro probation c u b attempted
    refine .bind ((allGiven_defaultOptions c.place fun inherits => ?_).imp fun defaults own => ?_)
    · exact ⟨probation, c, u, inherits ▸ attempted, rfl⟩
    · split
      · next options passed => exact Search.allGiven_one (.options ⟨defaults, passed, own⟩)
      · exact Search.allGiven_done
  | compound head elements head_ih ih => exact goesWays_compound head_ih ih
  | literal v =>
    exact fun _ c u b _ => .ite (fun same => Search.allGiven_one (.literal same)) Search.allGiven_done

theorem way_of_mem_seen {strategy : Strategy Bindings} {j : Journal} {b nb : Bindings}
    (reported : nb ∈ (p.matchOutcome ev t b strategy j).seen) : Way ev (Inherited ev p t j) (.part p {} t) b nb := by
  have keeps : j.KeepsOnly (Inherited ev p t j) := fun cell options kept => by rw [Inherited, kept]
  have accepts : j.Accepts (Asks ev p t) (Inherited ev p t j) :=
    fun cell declared asked fresh => by rwa [Inherited, fresh]
  have all : (p.solutions ev t b).AllGiven (Asks ev p t) (Inherited ev p t j)
      (Way ev (Inherited ev p t j) (.part p {} t) b) := .map (goesWays p false {} t b .whole)
  exact all.answers keeps accepts nb (mem_answers_of_mem_seen reported)

end Pattern

end TermRewriting
