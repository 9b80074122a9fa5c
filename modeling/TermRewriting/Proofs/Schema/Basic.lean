import TermRewriting.Pattern.Compile
import TermRewriting.Pattern.Match
import TermRewriting.Proofs.Matching.Fits

/-! Schemas: terms in which some places are held by named wildcards and all others are literal. A
schema can be written out, read as a pattern, and filled in by substitution. -/

namespace TermRewriting

/-- A wildcard with a name, and with a head that all its values must have if there is one. -/
structure Wildcard where
  name : String
  span : Span
  head : Option Term

inductive Schema where
  | atom (t : Term) (isAtom : t.isAtom = true)
  | wildcard (w : Wildcard)
  | app (head : Schema) (args : List Schema)

/-- The assignment has a run of terms for the wildcard, as long as it allows and of its head. -/
def Wildcard.AdmittedBy (w : Wildcard) (σ : Assignment) : Prop :=
  ∃ run, σ w.name = some (.ofRun run) ∧ w.span.width.admits run.length = true ∧
    ∀ t ∈ run, t.isSequence = false ∧ Pattern.headFits w.head t = true

namespace Schema

@[elab_as_elim]
theorem induct {P : Schema → Prop} (atom : ∀ t isAtom, P (.atom t isAtom))
    (wildcard : ∀ w, P (.wildcard w)) (app : ∀ head args, P head → (∀ s ∈ args, P s) → P (.app head args))
    (s : Schema) : P s :=
  @Schema.rec P (fun args => ∀ s ∈ args, P s) atom wildcard app (by simp)
    (fun _ _ first rest => by simp only [List.mem_cons, forall_eq_or_imp]; exact ⟨first, rest⟩) s

mutual

/-- The schema as it is written: `x_` is `Pattern[x, Blank[]]`. -/
def toTerm : Schema → Term
  | .atom t _ => t
  | .wildcard w =>
    .call Construct.named.name [.symbol w.name, .call (Construct.wildcard w.span).name w.head.toList]
  | .app head args => .app (toTerm head) (toTerms args)

def toTerms : List Schema → List Term
  | [] => []
  | s :: ss => toTerm s :: toTerms ss

end

mutual

def toPattern : Schema → Pattern
  | .atom t _ => .literal t
  | .wildcard w => .named w.name (.wildcard w.span w.head)
  | .app head args => .compound (toPattern head) (toPatterns args)

def toPatterns : List Schema → List Pattern
  | [] => []
  | s :: ss => toPattern s :: toPatterns ss

end

mutual

def skeleton : Schema → Term
  | .atom t _ => t
  | .wildcard w => .symbol w.name
  | .app head args => .app (skeleton head) (skeletons args)

def skeletons : List Schema → List Term
  | [] => []
  | s :: ss => skeleton s :: skeletons ss

end

mutual

def wildcards : Schema → List Wildcard
  | .atom _ _ => []
  | .wildcard w => [w]
  | .app head args => wildcards head ++ wildcardsOfAll args

def wildcardsOfAll : List Schema → List Wildcard
  | [] => []
  | s :: ss => wildcards s ++ wildcardsOfAll ss

end

mutual

def symbols : Schema → List String
  | .atom t _ => t.symbol?.toList
  | .wildcard _ => []
  | .app head args => symbols head ++ symbolsOfAll args

def symbolsOfAll : List Schema → List String
  | [] => []
  | s :: ss => symbols s ++ symbolsOfAll ss

end

mutual

/-- No application in it is written as one of the pattern constructs. -/
def isOrdinary : Schema → Bool
  | .atom _ _ | .wildcard _ => true
  | .app head args => (Construct.ofHead? (toTerm head)).isNone && isOrdinary head && areOrdinary args

def areOrdinary : List Schema → Bool
  | [] => true
  | s :: ss => isOrdinary s && areOrdinary ss

end

def names (s : Schema) : List String := s.wildcards.map (·.name)

/-- The names of the variables mean nothing else: none of them occurs as a literal symbol or is
marked as that of an option. -/
structure NamesApart (s : Schema) : Prop where
  literal : ∀ x ∈ s.names, x ∉ s.symbols
  option : ∀ x ∈ s.names, Bindings.optionOf? x = none

theorem areOrdinary_iff {ss : List Schema} : areOrdinary ss = true ↔ ∀ s ∈ ss, s.isOrdinary = true := by
  induction ss with
  | nil => simp [areOrdinary]
  | cons s ss ih => simp [areOrdinary, ih]

theorem mem_symbolsOfAll {ss : List Schema} {x : String} :
    x ∈ symbolsOfAll ss ↔ ∃ s ∈ ss, x ∈ s.symbols := by
  induction ss with
  | nil => simp [symbolsOfAll]
  | cons s ss ih => simp [symbolsOfAll, ih]

theorem mem_toPatterns {ss : List Schema} {p : Pattern} :
    p ∈ toPatterns ss ↔ ∃ s ∈ ss, s.toPattern = p := by
  induction ss with
  | nil => simp [toPatterns]
  | cons s ss ih => simp [toPatterns, ih, eq_comm]

theorem mem_toTerms {ss : List Schema} {t : Term} : t ∈ toTerms ss ↔ ∃ s ∈ ss, s.toTerm = t := by
  induction ss with
  | nil => simp [toTerms]
  | cons s ss ih => simp [toTerms, ih, eq_comm]

theorem compileArgs_toTerms {ss : List Schema}
    (each : ∀ s ∈ ss, ∀ cell, Pattern.compileAt cell s.toTerm = .ok s.toPattern) (cell : Position)
    (number : Nat) : Pattern.compileArgs cell number (toTerms ss) = .ok (toPatterns ss) := by
  induction ss generalizing number with
  | nil => rfl
  | cons s ss ih =>
    simp only [toTerms, toPatterns, Pattern.compileArgs, each s (by simp),
      ih (fun s member => each s (by simp [member]))]
    rfl

theorem compileAt_wildcard (cell : Position) (span : Span) (head : Option Term) :
    Pattern.compileAt cell (.call (Construct.wildcard span).name head.toList) =
      .ok (.wildcard span head) := by
  cases span <;> cases head <;> rfl

theorem compileAt_named (cell : Position) (name : String) (inner : Term) :
    Pattern.compileAt cell (.call Construct.named.name [.symbol name, inner]) =
      (Pattern.compileAt (2 :: cell) inner).map (.named name) := rfl

/-- A schema that is written out is read back as its pattern. -/
theorem compileAt_toTerm {s : Schema} (ordinary : s.isOrdinary = true) (cell : Position) :
    Pattern.compileAt cell s.toTerm = .ok s.toPattern := by
  induction s using Schema.induct generalizing cell with
  | atom t isAtom => cases t <;> first | rfl | cases isAtom
  | wildcard w =>
    rw [toTerm, compileAt_named, compileAt_wildcard]
    rfl
  | app head args head_ih ih =>
    simp only [isOrdinary, Bool.and_eq_true, Option.isNone_iff_eq_none, areOrdinary_iff] at ordinary
    obtain ⟨⟨noConstruct, ordinaryHead⟩, ordinaryArgs⟩ := ordinary
    have arguments := compileArgs_toTerms (fun s member => ih s member (ordinaryArgs s member)) cell 1
    simp only [toTerm, toPattern, Pattern.compileAt, noConstruct, arguments, head_ih ordinaryHead]
    rfl

end Schema

end TermRewriting
