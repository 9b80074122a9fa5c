import TermRewriting.Pattern.Siblings
import TermRewriting.Predicate
import TermRewriting.Substitution

/-! Matching: all ways in which a term fits a pattern, in the order in which they are tried. -/

namespace TermRewriting

namespace Pattern

def headFits (head : Option Term) (t : Term) : Bool := head.all fun h => t.isHeadedBy h

def testHolds (ev : Evaluator) (predicate t : Term) : Bool :=
  match Predicate.ofTerm? predicate with
  | some native => t.items.all fun item => native.check ev item
  | none => t.items.all fun item => (ev.evaluate (.app predicate [ev.evaluate item])).isTrue

/-- The value that a variable is bound to: the term itself, or the default of an optional pattern
that is left out. -/
def valueOf (ev : Evaluator) (inner : Pattern) (place : Option Place) (t : Term) : Search Term :=
  match inner.optionalDefault? with
  | some inline => if t.isEmptySequence then defaultValue ev inline place else .one t
  | none => .one t

def symbol? (head : Pattern) : Option String := head.literal?.bind Term.symbol?

def attributes (ev : Evaluator) (head : Pattern) : Attributes :=
  (head.symbol?.map ev.attributes).getD {}

/-- An application matches if its head and its arguments do. A run of siblings is no application
of anything, unless the pattern asks for a sequence. -/
def matchApplication (headMatcher : Matcher) (elements : List (Element Matcher))
    (attributes : Attributes) (whole : Bool) (t : Term) (b : Bindings) : Search Match :=
  match t with
  | .app h args =>
    if attributes.flat || (totalWidth (elements.map (·.pattern))).admits args.length then
      (headMatcher {} h b).bind fun m =>
        Siblings.matchAll ⟨h, args, attributes, elements.length, whole || !attributes.flat⟩ elements
          m.bindings
    else .done
  | _ => .done

/-- Whether a term that is no application of the head may match in place of the one element that is
required, since there are others and all of them can be left out. -/
def standsAlone (head : Term) (elements : List Pattern) (t : Term) : Bool :=
  !t.isHeadedBy head && t != head && (elements.filter fun p => !p.isOptional).length == 1 &&
    2 ≤ elements.length

/-- Under a head with one identity, a term that stands alone matches as the one element that is
required. -/
def matchLone (head : Option Term) (elements : List (Element Matcher)) (t : Term) (b : Bindings) :
    Search Match :=
  match head with
  | none => .done
  | some h =>
    if !standsAlone h (elements.map (·.pattern)) t then .done
    else
      (Search.thread (fun b e =>
        (e.matcher ⟨some ⟨h, e.position, elements.length⟩, true⟩
          (if e.pattern.isOptional then .sequence [] else t) b).map (·.bindings)) elements b).map
        (⟨·, {}⟩)

def matchCompound (ev : Evaluator) (head : Pattern) (headMatcher : Matcher)
    (elements : List (Element Matcher)) (whole : Bool) (t : Term) (b : Bindings) : Search Match :=
  let attributes := head.attributes ev
  if t.isSequence && head.symbol? != some "Sequence" then .done
  else
    (matchApplication headMatcher elements attributes whole t b).append fun _ =>
    if attributes.oneIdentity then matchLone head.literal? elements t b else .done

mutual

def search (ev : Evaluator) : Pattern → Matcher
  | .wildcard .one head, _, t, b =>
    if !t.isSequence && headFits head t then .one ⟨b, {}⟩ else .done
  | .wildcard .many head, _, t, b =>
    if !t.items.isEmpty && t.items.all (headFits head) then .one ⟨b, {}⟩ else .done
  | .wildcard .any head, _, t, b => if t.items.all (headFits head) then .one ⟨b, {}⟩ else .done
  | .named name inner, c, t, b =>
    (valueOf ev inner c.place t).bind fun value =>
      match b.get? name with
      | some bound => if bound.same value then search ev inner c t b else .done
      | none => search ev inner c t (b.bind name value)
  | .optional inner inline, c, t, b =>
    (if t.isEmptySequence then defaultValue ev inline c.place else .one t).bind fun value =>
      search ev inner {} value b
  | .alternatives choices, c, t, b => searchAny ev choices c t b
  | .except excluded fallback, c, t, b =>
    (search ev excluded c t b).barring fun _ => search ev fallback c t b
  | .verbatim v, _, t, b | .literal v, _, t, b => if v.same t then .one ⟨b, {}⟩ else .done
  | .hold inner, c, t, b => search ev inner c t b
  | .test inner predicate, c, t, b =>
    let verdict := Thunk.mk fun _ => testHolds ev predicate t
    (search ev inner { c with whole := true } t b).filter fun _ => verdict.get
  | .condition inner guard, c, t, b =>
    (search ev inner c t b).filter fun m => (ev.evaluate (guard.substitute m.bindings)).isTrue
  | .repeated inner least most, _, t, b =>
    if Width.admits ⟨least, most⟩ t.items.length then
      (Search.thread (fun b item => (search ev inner {} item b).map (·.bindings)) t.items b).map
        (⟨·, {}⟩)
    else .done
  | .options cell explicit, c, t, b =>
    (defaultOptions ev cell explicit c.place).bind fun options =>
      match Options.passAll? options t.items with
      | some options => .one ⟨b.bindOptions options, {}⟩
      | none => .done
  | .compound head elements, c, t, b =>
    matchCompound ev head (search ev head) (elementsFrom ev 1 elements) c.whole t b

def searchAny (ev : Evaluator) : List Pattern → Matcher
  | [], _, _, _ => .done
  | p :: ps, c, t, b => (search ev p c t b).append fun _ => searchAny ev ps c t b

/-- The elements of a compound pattern, the first of which has that position. -/
def elementsFrom (ev : Evaluator) (position : Nat) : List Pattern → List (Element Matcher)
  | [] => []
  | p :: ps => ⟨p, position, search ev p⟩ :: elementsFrom ev (position + 1) ps

end

def solutions (ev : Evaluator) (p : Pattern) (t : Term) (b : Bindings) : Search Bindings :=
  (p.search ev {} t b).map (·.bindings)

end Pattern

end TermRewriting
