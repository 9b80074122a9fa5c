import TermRewriting.Search.Basic

/-! Patterns: what a term may be matched against, and what can be read off a pattern without
matching. -/

namespace TermRewriting

/-- How many siblings a wildcard stands for: exactly one, at least one, or any number. -/
inductive Span where
  | one
  | many
  | any
deriving DecidableEq

inductive Pattern where
  /-- Anything, or anything with that head. -/
  | wildcard (span : Span) (head : Option Term)
  /-- What the inner pattern matches, bound to a variable. -/
  | named (name : String) (inner : Pattern)
  /-- May be left out; the default value then takes its place. -/
  | optional (inner : Pattern) (default : Option Term)
  | alternatives (choices : List Pattern)
  /-- What the fallback matches, unless the excluded pattern matches it too. -/
  | except (excluded fallback : Pattern)
  | verbatim (t : Term)
  | hold (inner : Pattern)
  /-- The test, applied to what is matched, must be true. -/
  | test (inner : Pattern) (predicate : Term)
  /-- The guard must be true under the bindings. -/
  | condition (inner : Pattern) (guard : Term)
  | repeated (inner : Pattern) (least : Nat) (most : Option Nat)
  /-- Options of a call. Without defaults it uses those declared for the enclosing head when it
  was first used; its cell tells it from the other such patterns. -/
  | options (cell : Position) (defaults : Option Term)
  | compound (head : Pattern) (elements : List Pattern)
  | literal (t : Term)
deriving Inhabited

@[elab_as_elim]
theorem Pattern.induct {P : Pattern → Prop} (wildcard : ∀ span head, P (.wildcard span head))
    (named : ∀ name inner, P inner → P (.named name inner))
    (optional : ∀ inner default, P inner → P (.optional inner default))
    (alternatives : ∀ choices, (∀ p ∈ choices, P p) → P (.alternatives choices))
    (except : ∀ excluded fallback, P excluded → P fallback → P (.except excluded fallback))
    (verbatim : ∀ t, P (.verbatim t)) (hold : ∀ inner, P inner → P (.hold inner))
    (test : ∀ inner predicate, P inner → P (.test inner predicate))
    (condition : ∀ inner guard, P inner → P (.condition inner guard))
    (repeated : ∀ inner least most, P inner → P (.repeated inner least most))
    (options : ∀ cell defaults, P (.options cell defaults))
    (compound : ∀ head elements, P head → (∀ p ∈ elements, P p) → P (.compound head elements))
    (literal : ∀ t, P (.literal t)) (p : Pattern) : P p :=
  @Pattern.rec P (fun ps => ∀ p ∈ ps, P p) wildcard named optional alternatives except verbatim hold
    test condition repeated options compound literal (by simp)
    (fun _ _ first rest => by simp only [List.mem_cons, forall_eq_or_imp]; exact ⟨first, rest⟩) p

/-- Numbers of siblings from `least` to `most`, or without an end. -/
structure Width where
  least : Nat
  most : Option Nat
deriving DecidableEq

namespace Width

def single : Width := ⟨1, some 1⟩

def admits (w : Width) (n : Nat) : Bool := w.least ≤ n && w.most.all (n ≤ ·)

/-- Both kinds of numbers, and those between them. -/
def join (v w : Width) : Width where
  least := min v.least w.least
  most := v.most.bind fun m => w.most.map fun n => max m n

/-- The sums are exact, and those of machine words as long as they fit one. -/
def add (v w : Width) : Width where
  least := v.least + w.least
  most := v.most.bind fun m => w.most.map fun n => m + n

end Width

namespace Span

def width : Span → Width
  | .one => .single
  | .many => ⟨1, none⟩
  | .any => ⟨0, none⟩

end Span

namespace Pattern

mutual

/-- How many siblings the pattern can stand for. -/
def width : Pattern → Width
  | .wildcard span _ => span.width
  | .named _ inner | .hold inner | .test inner _ | .condition inner _ => inner.width
  | .optional _ _ => ⟨0, some 1⟩
  | .alternatives choices => widthOfAny choices
  | .repeated _ least most => ⟨least, most⟩
  | .options _ _ => ⟨0, none⟩
  | .except _ _ | .verbatim _ | .compound _ _ | .literal _ => .single

def widthOfAny : List Pattern → Width
  | [] => .single
  | [p] => p.width
  | p :: q :: ps => p.width.join (widthOfAny (q :: ps))

end

def totalWidth (elements : List Pattern) : Width :=
  elements.foldr (fun p w => p.width.add w) ⟨0, some 0⟩

/-- Whether the pattern may take several arguments of a flat head as one application of it. -/
def isWildcard : Pattern → Bool
  | .wildcard _ _ | .named _ _ | .optional _ _ | .alternatives _ | .test _ _ | .condition _ _
  | .repeated _ _ _ => true
  | _ => false

/-- The inline default of an optional pattern, named or not; `none` for all other patterns. -/
def optionalDefault? : Pattern → Option (Option Term)
  | .optional _ default => some default
  | .named _ inner => inner.optionalDefault?
  | _ => none

def isOptional (p : Pattern) : Bool := p.optionalDefault?.isSome

/-- A cheap test that an argument passes before the pattern is tried on it. Literals are compared by
structure here, so that the spelling of a truth value counts. -/
def mayMatch (t : Term) : Pattern → Bool
  | .wildcard _ (some head) => t.isHeadedBy head
  | .named _ inner | .hold inner | .test inner _ | .condition inner _ => inner.mayMatch t
  | .verbatim v | .literal v => v == t
  | .options _ _ => t.isCall "Rule" || t.isCall "RuleDelayed" || t.isCall "List"
  | _ => true

/-- Where order does not count, elements are matched by rank: literal parts first, then what stands
for one argument, for several, and for none. -/
def rank (p : Pattern) : Nat :=
  if p.width.least = 0 then 3
  else if p.width.most.isNone then 2
  else match p with
    | .except _ _ => 1
    | p => if p.isWildcard then 1 else 0

def literal? : Pattern → Option Term
  | .literal t => some t
  | _ => none

end Pattern

end TermRewriting
