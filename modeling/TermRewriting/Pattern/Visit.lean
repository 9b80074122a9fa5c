import TermRewriting.Pattern.Match
import TermRewriting.Search.Visit

/-! Matching with a visitor. The visitor is handed each match while the search is going on, and the
search goes on for as long as the visitor wants more. Arguments are told apart by their positions
here, so that what a match in part leaves alone is a list of positions. -/

namespace TermRewriting

/-- The positions of the arguments that a match in part left alone, on either side. -/
structure Rest where
  before : List Nat := []
  after : List Nat := []
deriving DecidableEq

def Rest.leftover (r : Rest) (t : Term) : Leftover :=
  ⟨r.before.map (t.args.getD · default), r.after.map (t.args.getD · default)⟩

abbrev MatchVisitor (κ : Type) := Bindings → Rest → Visit κ

/-- Matches a term, starting from the bindings made before, and hands over the matches. -/
abbrev VisitMatches (κ : Type) := Context → Term → Bindings → MatchVisitor κ → Visit κ

variable {κ : Type}

namespace Siblings

def arg (s : Siblings) (position : Nat) : Term := s.args.getD position default

/-- The terms as which the arguments at some positions are presented to an element. -/
def visitPresentations (s : Siblings) (p : Pattern) (chosen : List Nat) (k : Term → Visit κ) :
    Visit κ :=
  match chosen with
  | [position] => k (s.arg position)
  | chosen =>
    Visit.andThen
      (if p.width.most.all (chosen.length ≤ ·) then
        if s.attributes.orderless then
          Visit.permutations chosen fun chosen => k (.sequence (chosen.map s.arg))
        else k (.sequence (chosen.map s.arg))
      else .proceed)
      fun _ =>
        if s.flattens p && !chosen.isEmpty && chosen.length < s.args.length then
          k (.app s.head (chosen.map s.arg))
        else .proceed

/-- The choices among the candidate positions for an element, each with the positions left out
before it and those left for later. -/
def visitChoices (s : Siblings) (p : Pattern) (first last : Bool) (candidates : List Nat)
    (b : Bindings) (k : (chosen before after : List Nat) → Visit κ) : Visit κ :=
  let least := p.width.least
  let included := candidates.filter fun position => s.fits p (s.arg position)
  if included.length < least then .proceed
  else if !s.attributes.orderless then
    Visit.runs candidates least (s.most p) (first && !s.whole) (!last) k
  else match boundTo? b p with
    | some value =>
      let does (want : Term) (position : Nat) : Bool :=
        (s.arg position).same want && included.contains position
      match take? does (s.needed value) candidates with
      | some split => k split.chosen [] split.after
      | none => .proceed
    | none =>
      Visit.subsets candidates included least (s.most p) (!last) fun chosen left => k chosen [] left

/-- Matches an element, and then the later ones against the positions that are left. -/
def visitElement (s : Siblings) (first : Bool) (e : Element (VisitMatches κ)) :
    (later : List (Element (VisitMatches κ))) → (candidates : List Nat) → Bindings →
      MatchVisitor κ → Visit κ
  | later, candidates, b, k =>
    s.visitChoices e.pattern first later.isEmpty candidates b fun chosen before after =>
    s.visitPresentations e.pattern chosen fun t =>
    e.matcher ⟨some ⟨s.head, e.position, s.count⟩, true⟩ t b fun b _ =>
    match later with
    | [] =>
      if !s.whole || (before.isEmpty && after.isEmpty) then k b ⟨before, after⟩ else .proceed
    | next :: later =>
      s.visitElement false next later after b fun b rest => k b ⟨before, rest.after⟩

def visitAll (s : Siblings) (elements : List (Element (VisitMatches κ))) (b : Bindings)
    (k : MatchVisitor κ) : Visit κ :=
  match Element.inOrder s.attributes.orderless elements with
  | [] => if s.args.isEmpty then k b {} else .proceed
  | e :: later => s.visitElement true e later (List.range s.args.length) b k

end Siblings

namespace Pattern

def visitDefault (ev : Evaluator) (inline : Option Term) (place : Option Place)
    (k : Term → Visit κ) : Visit κ :=
  match default? ev inline place with
  | some value => k value
  | none => .note (missingDefault place) .proceed

def visitDefaultOptions (ev : Evaluator) (cell : Position) (explicit : Option Term)
    (place : Option Place) (k : Options → Visit κ) : Visit κ :=
  match explicit with
  | some t => k (Options.declare ev.declaredOptions [] t)
  | none => .inherit cell (declaredAt ev place) k

def visitValue (ev : Evaluator) (inner : Pattern) (place : Option Place) (t : Term)
    (k : Term → Visit κ) : Visit κ :=
  match inner.optionalDefault? with
  | some inline => if t.isEmptySequence then visitDefault ev inline place k else k t
  | none => k t

def visitApplication (visitHead : VisitMatches κ) (elements : List (Element (VisitMatches κ)))
    (attributes : Attributes) (whole : Bool) (t : Term) (b : Bindings) (k : MatchVisitor κ) :
    Visit κ :=
  match t with
  | .app h args =>
    if attributes.flat || (totalWidth (elements.map (·.pattern))).admits args.length then
      visitHead {} h b fun b _ =>
        Siblings.visitAll ⟨h, args, attributes, elements.length, whole || !attributes.flat⟩ elements
          b k
    else .proceed
  | _ => .proceed

def visitLone (head : Option Term) (elements : List (Element (VisitMatches κ))) (t : Term)
    (b : Bindings) (k : MatchVisitor κ) : Visit κ :=
  match head with
  | none => .proceed
  | some h =>
    if !standsAlone h (elements.map (·.pattern)) t then .proceed
    else
      Visit.thread (fun b e k =>
        e.matcher ⟨some ⟨h, e.position, elements.length⟩, true⟩
          (if e.pattern.isOptional then .sequence [] else t) b fun b _ => k b) elements b
        fun b => k b {}

def visitCompound (ev : Evaluator) (head : Pattern) (visitHead : VisitMatches κ)
    (elements : List (Element (VisitMatches κ))) (whole : Bool) (t : Term) (b : Bindings)
    (k : MatchVisitor κ) : Visit κ :=
  let attributes := head.attributes ev
  if t.isSequence && head.symbol? != some "Sequence" then .proceed
  else
    (visitApplication visitHead elements attributes whole t b k).andThen fun _ =>
    if attributes.oneIdentity then visitLone head.literal? elements t b k else .proceed

mutual

/-- Hands over all matches of a term, in the order in which they are found. -/
def visit (ev : Evaluator) : Pattern → VisitMatches κ
  | .wildcard .one head, _, t, b, k => if !t.isSequence && headFits head t then k b {} else .proceed
  | .wildcard .many head, _, t, b, k =>
    if !t.items.isEmpty && t.items.all (headFits head) then k b {} else .proceed
  | .wildcard .any head, _, t, b, k => if t.items.all (headFits head) then k b {} else .proceed
  | .named name inner, c, t, b, k =>
    visitValue ev inner c.place t fun value =>
      match b.get? name with
      | some bound => if bound.same value then visit ev inner c t b k else .proceed
      | none => visit ev inner c t (b.bind name value) k
  | .optional inner inline, c, t, b, k =>
    if t.isEmptySequence then
      visitDefault ev inline c.place fun value => visit ev inner {} value b k
    else visit ev inner {} t b k
  | .alternatives choices, c, t, b, k => visitAny ev choices c t b k
  | .except excluded fallback, c, t, b, k =>
    (visit ev excluded c t b fun _ _ => .stop .excluded).barring fun _ => visit ev fallback c t b k
  | .verbatim v, _, t, b, k | .literal v, _, t, b, k => if v.same t then k b {} else .proceed
  | .hold inner, c, t, b, k => visit ev inner c t b k
  | .test inner predicate, c, t, b, k =>
    let verdict := Thunk.mk fun _ => testHolds ev predicate t
    visit ev inner { c with whole := true } t b fun b _ =>
      if verdict.get then k b {} else .proceed
  | .condition inner guard, c, t, b, k =>
    visit ev inner c t b fun b rest =>
      if (ev.evaluate (guard.substitute b)).isTrue then k b rest else .proceed
  | .repeated inner least most, _, t, b, k =>
    if Width.admits ⟨least, most⟩ t.items.length then
      Visit.thread (fun b item k => visit ev inner {} item b fun b _ => k b) t.items b fun b => k b {}
    else .proceed
  | .options cell explicit, c, t, b, k =>
    visitDefaultOptions ev cell explicit c.place fun options =>
      match Options.passAll? options t.items with
      | some options => k (b.bindOptions options) {}
      | none => .proceed
  | .compound head elements, c, t, b, k =>
    visitCompound ev head (visit ev head) (visitorsFrom ev 1 elements) c.whole t b k

def visitAny (ev : Evaluator) : List Pattern → VisitMatches κ
  | [], _, _, _, _ => .proceed
  | p :: ps, c, t, b, k => (visit ev p c t b k).andThen fun _ => visitAny ev ps c t b k

def visitorsFrom (ev : Evaluator) (position : Nat) : List Pattern → List (Element (VisitMatches κ))
  | [] => []
  | p :: ps => ⟨p, position, visit ev p⟩ :: visitorsFrom ev (position + 1) ps

end

/-- Calls the visitor once for every complete match of a term that extends the bindings. -/
def matchWith (ev : Evaluator) (p : Pattern) (t : Term) (b : Bindings) (k : Bindings → Visit κ) :
    Visit κ :=
  p.visit ev {} t b fun b _ => k b

def matchOutcome (ev : Evaluator) (p : Pattern) (t : Term) (b : Bindings)
    (strategy : Strategy Bindings) (j : Journal) : Outcome Bindings :=
  Visit.outcome (p.matchWith ev t b) strategy j

/-- Calls the visitor once for every match of a run of siblings, which is presented as a sequence. -/
def matchSequence (ev : Evaluator) (p : Pattern) (ts : List Term) (k : Bindings → Visit κ) : Visit κ :=
  p.matchWith ev (.sequence ts) .empty k

def sequenceOutcome (ev : Evaluator) (p : Pattern) (ts : List Term) (strategy : Strategy Bindings)
    (j : Journal) : Outcome Bindings :=
  Visit.outcome (p.matchSequence ev ts) strategy j

def firstMatch (ev : Evaluator) (p : Pattern) (t : Term) : StateM Journal (Option Bindings) := fun j =>
  let outcome := p.matchOutcome ev t .empty (.upTo 1 .found) j
  (outcome.seen[0]?, outcome.journal)

def allMatches (ev : Evaluator) (p : Pattern) (t : Term) : StateM Journal (List Bindings) := fun j =>
  let outcome := p.matchOutcome ev t .empty .all j
  (outcome.seen.toList, outcome.journal)

def isMatch (ev : Evaluator) (p : Pattern) (t : Term) : StateM Journal Bool :=
  return (← p.firstMatch ev t).isSome

end Pattern

end TermRewriting
