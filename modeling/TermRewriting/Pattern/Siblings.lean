import TermRewriting.Pattern.Context
import TermRewriting.Search.Choice
import TermRewriting.Term.Same

/-! Distribution of the arguments of one application among element patterns. Each element takes
some of the arguments left by the elements before it; how it may choose them depends on the
attributes of the head. -/

namespace TermRewriting

/-- An element pattern with its position, counted from one, and the way to match it. -/
structure Element (μ : Type) where
  pattern : Pattern
  position : Nat
  matcher : μ

namespace Element

def byRank (elements : List (Element μ)) : List (Element μ) :=
  [0, 1, 2, 3].flatMap fun r => elements.filter fun e => e.pattern.rank == r

def inOrder (orderless : Bool) (elements : List (Element μ)) : List (Element μ) :=
  if orderless then byRank elements else elements

end Element

/-- The application whose arguments are distributed, and the number of element patterns. -/
structure Siblings where
  head : Term
  args : List Term
  attributes : Attributes
  count : Nat
  whole : Bool

namespace Siblings

def flattens (s : Siblings) (p : Pattern) : Bool :=
  s.attributes.flat && (p.isWildcard || match p with
    | .compound (.literal head) _ => head == s.head
    | _ => false)

def fits (s : Siblings) (p : Pattern) (t : Term) : Bool := s.flattens p || p.mayMatch t

def most (s : Siblings) (p : Pattern) : Option Nat :=
  if s.attributes.flat && p.isWildcard then none else p.width.most

def needed (s : Siblings) (bound : Term) : List Term :=
  if bound.isSequence || (s.attributes.flat && bound.isHeadedBy s.head) then bound.args else [bound]

def pull? (holds : α → Bool) : List α → Option (α × List α)
  | [] => none
  | x :: xs => if holds x then some (x, xs) else (pull? holds xs).map fun (y, rest) => (y, x :: rest)

/-- Takes, for each wanted term, the first of the items that will do. -/
def take? (does : Term → α → Bool) : List Term → List α → Option (Split α)
  | [], items => some ⟨[], [], items⟩
  | want :: wanted, items =>
    (pull? (does want) items).bind fun (x, rest) =>
      (take? does wanted rest).map fun split => { split with chosen := x :: split.chosen }

def boundTo? (b : Bindings) : Pattern → Option Term
  | .named name _ => b.get? name
  | _ => none

/-- The choices of arguments for an element. In order these are runs, and the first run may begin
later if arguments may be left over. Without order they are subsets; a variable that is already
bound only takes what it is bound to. -/
def splits (s : Siblings) (p : Pattern) (first last : Bool) (items : List Term) (b : Bindings) :
    Search (Split Term) :=
  let least := p.width.least
  if (items.filter (s.fits p)).length < least then .done
  else if !s.attributes.orderless then Search.runs items least (s.most p) (first && !s.whole) (!last)
  else match boundTo? b p with
    | some value => .ofOption (take? (fun want t => t.same want && s.fits p t) (s.needed value) items)
    | none => Search.subsets (s.fits p) items least (s.most p) (!last)

/-- The terms as which a choice of arguments is presented to an element: one argument alone as
itself, others as a sequence, in every arrangement if order does not count; and under a flat head
as an application of it, unless it would have all arguments. -/
def presentations (s : Siblings) (p : Pattern) : List Term → Search Term
  | [t] => .one t
  | chosen =>
    (if p.width.most.all (chosen.length ≤ ·) then
        (if s.attributes.orderless then Search.permutations chosen else .one chosen).map Term.sequence
      else .done).append fun _ =>
    if s.flattens p && !chosen.isEmpty && chosen.length < s.args.length then .one (.app s.head chosen)
    else .done

/-- Matches the elements in turn against the items. What the first leaves out before its run and
what no element takes is left over. -/
def distribute (s : Siblings) :
    (first : Bool) → List (Element Matcher) → List Term → Bindings → Search Match
  | _, [], items, b => if s.whole && !items.isEmpty then .done else .one ⟨b, ⟨[], items⟩⟩
  | first, e :: later, items, b =>
    (s.splits e.pattern first later.isEmpty items b).bind fun split =>
    (s.presentations e.pattern split.chosen).bind fun t =>
    (e.matcher ⟨some ⟨s.head, e.position, s.count⟩, true⟩ t b).bind fun m =>
    (distribute s false later split.after m.bindings).map fun rest =>
      { rest with left := ⟨split.before, rest.left.after⟩ }

/-- All ways to match the arguments with the elements. No elements match no arguments only. -/
def matchAll (s : Siblings) (elements : List (Element Matcher)) (b : Bindings) : Search Match :=
  let elements := Element.inOrder s.attributes.orderless elements
  distribute { s with whole := s.whole || elements.isEmpty } true elements s.args b

end Siblings

end TermRewriting
