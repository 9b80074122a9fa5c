import TermRewriting.Proofs.Matching.Kept
import TermRewriting.Proofs.Term.Arranged

/-! Regular patterns. What they match has the size that their width says, what may be left out where
order does not count is not bound before, and their defaults are arranged. -/

namespace TermRewriting

open Bindings (optionOf?)

/-- Every variable is bound to an arranged term or to a run of them. Options are not looked at. -/
def Bindings.Arranged (ev : Evaluator) (le : Term → Term → Prop) (b : Bindings) : Prop :=
  ∀ x v, optionOf? x = none → b.get? x = some v → v.ArrangedRun ev le

namespace Bindings

variable {ev : Evaluator} {le : Term → Term → Prop} {b : Bindings}

theorem arranged_empty : empty.Arranged ev le := by
  intro x v _ found
  cases found

theorem Arranged.bind (h : b.Arranged ev le) (x : String) {v : Term} (value : v.ArrangedRun ev le) :
    (b.bind x v).Arranged ev le := by
  intro y u unmarked found
  rw [get?_bind] at found
  split at found
  · exact Option.some.inj found ▸ value
  · exact h y u unmarked found

theorem Arranged.bindOptions (h : b.Arranged ev le) (options : Options) :
    (b.bindOptions options).Arranged ev le := by
  induction options generalizing b with
  | nil => exact h
  | cons entry options ih =>
    refine ih fun y u unmarked found => ?_
    change (b.bind (optionMark ++ entry.1) entry.2).get? y = some u at found
    rw [get?_bind, if_neg] at found
    · exact h y u unmarked found
    · rintro rfl
      simpa [unmarked] using optionOf?_optionMark_append entry.1

end Bindings

namespace Pattern

/-- The pattern does not match the empty run unless its width allows for it. -/
def Sized (ev : Evaluator) (p : Pattern) : Prop :=
  ∀ c b β, (search ev p c (.sequence []) b).Reaches β → p.width.least = 0

variable {ev : Evaluator} {le : Term → Term → Prop} {choose : Chooser}

theorem admits_one_of_reaches {p : Pattern} {c : Context} {t : Term} {b β : Bindings}
    (alone : t.isSequence = false) (reached : (searchBy ev choose p c t b).Reaches β) :
    p.width.admits 1 = true := by
  induction p using Pattern.induct generalizing c b β with
  | wildcard span head => cases span <;> rfl
  | named x inner ih =>
    obtain ⟨value, -, ⟨_, -, -, reached⟩ | ⟨-, reached⟩⟩ := reaches_named.mp reached
    · exact ih reached
    · exact ih reached
  | alternatives choices ih =>
    obtain ⟨p, member, reached⟩ := reaches_alternatives.mp reached
    exact admits_widthOfAny member (ih p member reached)
  | hold inner ih => exact ih reached
  | test inner predicate ih => exact ih (reaches_test.mp reached).1
  | condition inner guard ih => exact ih (reaches_condition.mp reached).1
  | repeated inner least most ih =>
    have admits := (reaches_repeated.mp reached).1
    rwa [Term.items_eq_singleton alone] at admits
  | _ => rfl

theorem least_le_of_reaches {p : Pattern} {c : Context} {ts : List Term} {b β : Bindings}
    (nonempty : ts ≠ []) (reached : (searchBy ev choose p c (.sequence ts) b).Reaches β) :
    p.width.least ≤ ts.length := by
  have one : 1 ≤ ts.length := List.length_pos_iff.mpr nonempty
  induction p using Pattern.induct generalizing c b β with
  | wildcard span head =>
    cases span with
    | any => exact Nat.zero_le _
    | _ => exact one
  | named x inner ih =>
    obtain ⟨value, -, ⟨_, -, -, reached⟩ | ⟨-, reached⟩⟩ := reaches_named.mp reached
    · exact ih reached
    · exact ih reached
  | alternatives choices ih =>
    obtain ⟨p, member, reached⟩ := reaches_alternatives.mp reached
    exact Nat.le_trans (least_widthOfAny_le member) (ih p member reached)
  | hold inner ih => exact ih reached
  | test inner predicate ih => exact ih (reaches_test.mp reached).1
  | condition inner guard ih => exact ih (reaches_condition.mp reached).1
  | repeated inner least most ih => exact (Width.admits_iff.mp (reaches_repeated.mp reached).1).1
  | except | verbatim | literal | compound => exact one
  | optional | options => exact Nat.zero_le _

def optionalName? : Pattern → Option String
  | .named x inner => if inner.isOptional then some x else none
  | _ => none

mutual

/-- The variables of elements that may be left out, under heads whose arguments have no order. -/
def leftOut (ev : Evaluator) : Pattern → List String
  | .named _ inner | .optional inner _ | .hold inner | .test inner _ | .condition inner _
  | .repeated inner _ _ => leftOut ev inner
  | .alternatives choices => leftOutOfAll ev false choices
  | .except excluded fallback => leftOut ev excluded ++ leftOut ev fallback
  | .compound head elements => leftOut ev head ++ leftOutOfAll ev (head.attributes ev).orderless elements
  | .wildcard _ _ | .verbatim _ | .options _ _ | .literal _ => []

def leftOutOfAll (ev : Evaluator) (free : Bool) : List Pattern → List String
  | [] => []
  | p :: ps =>
    (if free then p.optionalName?.toList else []) ++ leftOut ev p ++ leftOutOfAll ev free ps

end

/-- The variables that matching an element may leave out, that of the element included if order does
not count. -/
def leftOutAt (ev : Evaluator) (free : Bool) (p : Pattern) : List String :=
  (if free then p.optionalName?.toList else []) ++ p.leftOut ev

theorem mem_leftOutOfAll {free : Bool} {ps : List Pattern} {x : String} :
    x ∈ leftOutOfAll ev free ps ↔ ∃ p ∈ ps, x ∈ p.leftOutAt ev free := by
  induction ps with
  | nil => simp [leftOutOfAll]
  | cons p ps ih => simp [leftOutOfAll, leftOutAt, ih, or_assoc]

/-- The first of two elements binds nothing that the second may leave out. -/
def Spares (ev : Evaluator) (free : Bool) (p q : Pattern) : Prop := ∀ x ∈ q.leftOutAt ev free, x ∉ p.binds

instance (ev : Evaluator) (free : Bool) (p q : Pattern) : Decidable (Spares ev free p q) :=
  inferInstanceAs (Decidable (∀ x ∈ q.leftOutAt ev free, x ∉ p.binds))

def inTurn (orderless : Bool) (ps : List Pattern) : List Pattern :=
  (Element.inOrder orderless (places 1 ps)).map (·.pattern)

theorem inTurn_perm (orderless : Bool) (ps : List Pattern) : (inTurn orderless ps).Perm ps := by
  have perm := (Element.rearranged_inOrder orderless (places 1 ps)).perm.map (·.pattern)
  rwa [map_pattern_places] at perm

/-- A pattern all of whose parts are as follows. No variable goes by the name of an option, and inline
defaults are arranged. What may be left out is not bound before, neither by the variable around it
nor by the head nor by elements that are matched earlier, and is not repeated. Where order does not
count, what a variable stands for is sized. -/
inductive Regular (ev : Evaluator) (le : Term → Term → Prop) : Pattern → Prop
  | wildcard (span : Span) (head : Option Term) : Regular ev le (.wildcard span head)
  | named {x : String} {inner : Pattern} : optionOf? x = none → x ∉ inner.leftOut ev →
    Regular ev le inner → Regular ev le (.named x inner)
  | optional {inner : Pattern} {inline : Option Term} :
    (∀ v, inline = some v → v.ArrangedRun ev le) → Regular ev le inner →
      Regular ev le (.optional inner inline)
  | alternatives {choices : List Pattern} :
    (∀ p ∈ choices, Regular ev le p) → Regular ev le (.alternatives choices)
  | except {excluded fallback : Pattern} : Regular ev le excluded → Regular ev le fallback →
    Regular ev le (.except excluded fallback)
  | verbatim (t : Term) : Regular ev le (.verbatim t)
  | hold {inner : Pattern} : Regular ev le inner → Regular ev le (.hold inner)
  | test {inner : Pattern} (predicate : Term) : Regular ev le inner →
    Regular ev le (.test inner predicate)
  | condition {inner : Pattern} (guard : Term) : Regular ev le inner →
    Regular ev le (.condition inner guard)
  | repeated {inner : Pattern} (least : Nat) (most : Option Nat) : inner.leftOut ev = [] →
    Regular ev le inner → Regular ev le (.repeated inner least most)
  | options (cell : Position) (defaults : Option Term) : Regular ev le (.options cell defaults)
  | compound {head : Pattern} {elements : List Pattern} : Regular ev le head →
    (∀ p ∈ elements, Regular ev le p) →
    ((head.attributes ev).orderless = true → ∀ x inner, .named x inner ∈ elements → inner.Sized ev) →
    (∀ p ∈ elements, Spares ev (head.attributes ev).orderless head p) →
    (inTurn (head.attributes ev).orderless elements).Pairwise
      (Spares ev (head.attributes ev).orderless) →
    ((head.attributes ev).oneIdentity = true → elements.Pairwise (Spares ev false)) →
      Regular ev le (.compound head elements)
  | literal (t : Term) : Regular ev le (.literal t)

theorem Regular.arranged_default {p : Pattern} (h : p.Regular ev le) :
    ∀ v, p.optionalDefault? = some (some v) → v.ArrangedRun ev le := by
  induction h with
  | named _ _ _ ih => exact ih
  | optional arranged _ _ => exact fun v eq => arranged v (Option.some.inj eq)
  | _ =>
    intro v eq
    cases eq

theorem Regular.arranged_inlineDefaults {p : Pattern} (h : p.Regular ev le) :
    ∀ v ∈ p.inlineDefaults, v.ArrangedRun ev le := by
  have ofAll {ps : List Pattern} (each : ∀ p ∈ ps, ∀ v ∈ p.inlineDefaults, v.ArrangedRun ev le) (v : Term)
      (member : v ∈ inlineDefaultsOfAll ps) : v.ArrangedRun ev le := by
    obtain ⟨p, inList, within⟩ := mem_inlineDefaultsOfAll.mp member
    exact each p inList v within
  induction h with
  | named _ _ _ ih | hold _ ih | test _ _ ih | condition _ _ ih | repeated _ _ _ _ ih => exact ih
  | optional arranged _ ih =>
    intro v member
    exact (List.mem_append.mp member).elim (fun direct => arranged v (Option.mem_toList.mp direct)) (ih v)
  | alternatives _ ih => exact ofAll ih
  | except _ _ excluded fallback =>
    intro v member
    exact (List.mem_append.mp member).elim (excluded v) (fallback v)
  | compound _ _ _ _ _ _ head ih =>
    intro v member
    exact (List.mem_append.mp member).elim (head v) (ofAll ih v)
  | _ =>
    intro v member
    cases member

theorem Regular.unmarked_of_optionalName? {p : Pattern} (h : p.Regular ev le) {x : String}
    (name : p.optionalName? = some x) : optionOf? x = none := by
  cases h with
  | @named y inner unmarked _ _ =>
    rw [optionalName?] at name
    split at name
    · exact Option.some.inj name ▸ unmarked
    · cases name
  | _ => cases name

theorem Regular.unmarked_at {p : Pattern} (h : p.Regular ev le)
    (within : ∀ x ∈ p.leftOut ev, optionOf? x = none) (free : Bool) :
    ∀ x ∈ p.leftOutAt ev free, optionOf? x = none := by
  intro x member
  rcases List.mem_append.mp member with direct | inside
  · split at direct
    · exact h.unmarked_of_optionalName? (Option.mem_toList.mp direct)
    · cases direct
  · exact within x inside

/-- No option of a call goes by the name of a variable that may be left out. -/
theorem Regular.unmarked {p : Pattern} (h : p.Regular ev le) : ∀ x ∈ p.leftOut ev, optionOf? x = none := by
  have ofAll {free : Bool} {ps : List Pattern} (regular : ∀ p ∈ ps, p.Regular ev le)
      (each : ∀ p ∈ ps, ∀ x ∈ p.leftOut ev, optionOf? x = none) (x : String)
      (member : x ∈ leftOutOfAll ev free ps) : optionOf? x = none := by
    obtain ⟨p, inList, named⟩ := mem_leftOutOfAll.mp member
    exact (regular p inList).unmarked_at (each p inList) free x named
  induction h with
  | named _ _ _ ih | optional _ _ ih | hold _ ih | test _ _ ih | condition _ _ ih
  | repeated _ _ _ _ ih => exact ih
  | alternatives regular ih => exact ofAll regular ih
  | except _ _ excluded fallback =>
    intro x member
    exact (List.mem_append.mp member).elim (excluded x) (fallback x)
  | compound _ regular _ _ _ _ head ih =>
    intro x member
    exact (List.mem_append.mp member).elim (head x) (ofAll regular ih x)
  | _ =>
    intro x member
    cases member

end Pattern

end TermRewriting
