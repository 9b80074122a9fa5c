import TermRewriting.Proofs.Term.Plain

/-! Terms that differ in the spelling of truth values only. Each term has a canonical form, in which
truth values are spelled as symbols and zero has no sign. Terms are the same if they have the same
canonical form; where no truth value is involved, equality of structure is sameness. -/

namespace TermRewriting

namespace Binary64

def canonical (x : Binary64) : Binary64 := if x.isZero then ⟨0⟩ else x

theorem isZero_canonical (x : Binary64) : x.canonical.isZero = x.isZero := by
  unfold canonical
  split
  · next zero => rw [zero]; decide
  · rfl

theorem isNaN_of_isZero {x : Binary64} (h : x.isZero = true) : x.isNaN = false := by
  simp only [isZero, isFinite, Bool.and_eq_true, decide_eq_true_eq] at h
  simp only [isNaN, Bool.and_eq_false_iff, beq_eq_false_iff_ne]
  omega

theorem isNaN_canonical (x : Binary64) : x.canonical.isNaN = x.isNaN := by
  by_cases zero : x.isZero = true
  · rw [isNaN_of_isZero zero, isNaN_of_isZero (by rw [isZero_canonical, zero])]
  · rw [canonical, if_neg zero]

theorem canonical_eq_iff {x y : Binary64} :
    x.canonical = y.canonical ↔ x = y ∨ x.isZero = true ∧ y.isZero = true := by
  constructor
  · intro eq
    have zeros : x.isZero = y.isZero := by rw [← isZero_canonical, eq, isZero_canonical]
    by_cases zero : y.isZero = true
    · exact .inr ⟨zeros.trans zero, zero⟩
    · rw [canonical, canonical, zeros, if_neg zero, if_neg zero] at eq
      exact .inl eq
  · rintro (rfl | ⟨zero, zero'⟩)
    · rfl
    · rw [canonical, canonical, if_pos zero, if_pos zero']

theorem canonical_canonical (x : Binary64) : x.canonical.canonical = x.canonical := by
  by_cases zero : x.isZero = true
  · exact canonical_eq_iff.mpr (.inr ⟨by rw [isZero_canonical, zero], zero⟩)
  · simp only [canonical, if_neg zero]

theorem beq_iff {x y : Binary64} :
    (x == y) = true ↔ x.isNaN = false ∧ x.canonical = y.canonical := by
  have bits : x.bits = y.bits ↔ x = y := ⟨congrArg Binary64.mk, congrArg Binary64.bits⟩
  change Binary64.beq x y = true ↔ _
  simp only [Binary64.beq, Bool.and_eq_true, Bool.or_eq_true, Bool.not_eq_true', beq_iff_eq, bits,
    ← canonical_eq_iff, and_assoc]
  constructor
  · rintro ⟨number, -, eq⟩
    exact ⟨number, eq⟩
  · rintro ⟨number, eq⟩
    refine ⟨number, ?_, eq⟩
    rw [← isNaN_canonical, ← eq, isNaN_canonical, number]

end Binary64

namespace Term

def truthName (b : Bool) : String := if b then "True" else "False"

mutual

def canonical : Term → Term
  | .real x => .real x.canonical
  | .boolean b => .symbol (truthName b)
  | .app head args => .app (canonical head) (canonicalAll args)
  | t => t

def canonicalAll : List Term → List Term
  | [] => []
  | t :: ts => canonical t :: canonicalAll ts

end

theorem canonicalAll_eq_map (ts : List Term) : canonicalAll ts = ts.map canonical := by
  induction ts with
  | nil => rfl
  | cons t ts ih => simp [canonicalAll, ih]

theorem canonical_app (head : Term) (args : List Term) :
    (app head args).canonical = .app head.canonical (args.map canonical) := by
  rw [canonical, canonicalAll_eq_map]

theorem canonical_sequence (ts : List Term) : (sequence ts).canonical = .sequence (ts.map canonical) :=
  canonical_app ..

def isNumeric (t : Term) : Bool := t.every fun
  | .real x => !x.isNaN
  | _ => true

def isTruthFree (t : Term) : Bool := t.every (·.bool?.isNone)

theorem bool?_symbol_eq_some {name : String} {b : Bool} :
    (symbol name).bool? = some b ↔ name = truthName b := by
  cases b <;> by_cases true : name = "True" <;> by_cases false : name = "False" <;>
    simp [bool?, truthName, true, false]

theorem isTruthFree_symbol {name : String} (other : ∀ b, name ≠ truthName b) :
    (symbol name).isTruthFree = true := by
  refine Option.isNone_iff_eq_none.mpr (Option.eq_none_iff_forall_ne_some.mpr fun b eq => ?_)
  exact other b (bool?_symbol_eq_some.mp eq)

theorem eq_symbol_of_canonical {name : String} (other : ∀ b, name ≠ truthName b) {t : Term}
    (h : t.canonical = .symbol name) : t = .symbol name := by
  cases t with
  | boolean b => exact (other b (symbol.inj h).symm).elim
  | symbol _ => exact h
  | _ => simp [canonical] at h

theorem sameAll_iff {xs ys : List Term} (each : ∀ x ∈ xs, ∀ y,
    x.same y = true ↔ x.isNumeric = true ∧ x.canonical = y.canonical) :
    sameAll xs ys = true ↔ (∀ x ∈ xs, x.isNumeric = true) ∧ xs.map canonical = ys.map canonical := by
  induction xs generalizing ys with
  | nil => cases ys <;> simp [sameAll]
  | cons x xs ih =>
    cases ys with
    | nil => simp [sameAll]
    | cons y ys =>
      simp only [sameAll, Bool.and_eq_true, each x (by simp), ih fun z member => each z (by simp [member]),
        List.forall_mem_cons, List.map_cons, List.cons.injEq]
      exact and_and_and_comm

theorem beq_def (t u : Term) : (t == u) = t.beq u := rfl

/-- Sameness is having the same canonical form, but that no NaN is the same as anything. -/
theorem same_iff {t u : Term} :
    t.same u = true ↔ t.isNumeric = true ∧ t.canonical = u.canonical := by
  induction t using Term.induct generalizing u with
  | app head args head_ih ih =>
    cases u with
    | app head' args' =>
      have arguments : sameAll args args' = true ↔ _ := sameAll_iff fun t member _ => ih t member
      simp only [same, Bool.and_eq_true, head_ih, arguments, canonical_app, isNumeric, every_app,
        app.injEq, true_and]
      exact and_and_and_comm
    | _ => simp [same, canonical, bool?, beq_def, Term.beq]
  | real x =>
    cases u with
    | real y => simp [same, canonical, beq_def, Term.beq, Binary64.beq_iff, isNumeric, every]
    | _ => simp [same, canonical, bool?, beq_def, Term.beq]
  | boolean b =>
    cases u with
    | symbol name =>
      simp only [same, canonical, beq_iff_eq, bool?_symbol_eq_some, isNumeric, every, true_and,
        symbol.injEq]
      exact eq_comm
    | boolean b' =>
      cases b <;> cases b' <;> simp [same, canonical, bool?, truthName, isNumeric, every]
    | _ => simp [same, canonical, bool?]
  | symbol name =>
    cases u with
    | boolean b => simp [same, canonical, bool?_symbol_eq_some, isNumeric, every]
    | _ => simp [same, canonical, beq_def, Term.beq, isNumeric, every]
  | _ => cases u <;> simp [same, canonical, bool?, beq_def, Term.beq, isNumeric, every]

theorem isNumeric_canonical (t : Term) : t.canonical.isNumeric = t.isNumeric := by
  induction t using Term.induct with
  | real x => simp [canonical, isNumeric, every, Binary64.isNaN_canonical]
  | app head args head_ih ih =>
    have arguments : (∀ t ∈ args.map canonical, t.isNumeric = true) ↔ ∀ t ∈ args, t.isNumeric = true := by
      simp only [List.forall_mem_map]
      exact forall₂_congr fun t member => by rw [ih t member]
    rw [canonical_app, Bool.eq_iff_iff]
    unfold isNumeric at head_ih arguments ⊢
    rw [every_app, every_app, head_ih, arguments]
  | _ => rfl

/-- Sameness does not tell terms of one canonical form apart. -/
theorem same_congr {t t' u u' : Term} (ht : t.canonical = t'.canonical)
    (hu : u.canonical = u'.canonical) : t.same u = t'.same u' := by
  rw [Bool.eq_iff_iff, same_iff, same_iff, ← isNumeric_canonical t, ht, isNumeric_canonical, hu]

theorem sameAll_eq_beqAll {xs ys : List Term} (each : ∀ x ∈ xs, ∀ y ∈ ys, x.same y = (x == y)) :
    sameAll xs ys = beqAll xs ys := by
  induction xs generalizing ys with
  | nil => cases ys <;> rfl
  | cons x xs ih =>
    cases ys with
    | nil => rfl
    | cons y ys =>
      rw [sameAll, beqAll, each x (by simp) y (by simp), beq_def,
        ih fun x inXs y inYs => each x (by simp [inXs]) y (by simp [inYs])]

theorem same_eq_beq {t u : Term} (free : t.isTruthFree = true ∨ u.isTruthFree = true) :
    t.same u = (t == u) := by
  induction t using Term.induct generalizing u with
  | app head args head_ih ih =>
    cases u with
    | app head' args' =>
      have inHead : head.isTruthFree = true ∨ head'.isTruthFree = true :=
        free.imp (fun h => (every_app.mp h).2.1) fun h => (every_app.mp h).2.1
      have inArgs : sameAll args args' = beqAll args args' :=
        sameAll_eq_beqAll fun t member u member' => ih t member <|
          free.imp (fun h => (every_app.mp h).2.2 t member) fun h => (every_app.mp h).2.2 u member'
      rw [same, head_ih inHead, inArgs, beq_def, beq_def, Term.beq]
    | _ => simp [same, bool?, beq_def, Term.beq]
  | boolean b =>
    have other : u.isTruthFree = true := free.resolve_left (by simp [isTruthFree, every, bool?])
    have none : u.bool? = none := by simpa using holds_of_every other
    have apart : (boolean b == u) = false := by cases u <;> first | rfl | cases none
    rw [apart, same, none]
    · rfl
  | symbol name =>
    cases u with
    | boolean b =>
      have other : (symbol name).isTruthFree = true :=
        free.resolve_right (by simp [isTruthFree, every, bool?])
      have none : (symbol name).bool? = none := by simpa using holds_of_every other
      simp [same, none, beq_def, Term.beq]
    | _ => simp [same, beq_def, Term.beq]
  | _ => cases u <;> simp [same, bool?, beq_def, Term.beq]

/-- No truth value is in the term, other than as a symbol. -/
def isSymbolic (t : Term) : Bool := t.every fun
  | .boolean _ => false
  | _ => true

/-- The same goes for terms in which truth values are only spelled as symbols. -/
theorem same_eq_beq_of_isSymbolic {t u : Term} (ht : t.isSymbolic = true) (hu : u.isSymbolic = true) :
    t.same u = (t == u) := by
  induction t using Term.induct generalizing u with
  | app head args head_ih ih =>
    cases u with
    | app head' args' =>
      obtain ⟨-, inHead, inArgs⟩ := every_app.mp ht
      obtain ⟨-, inHead', inArgs'⟩ := every_app.mp hu
      have arguments : sameAll args args' = beqAll args args' :=
        sameAll_eq_beqAll fun t member u member' => ih t member (inArgs t member) (inArgs' u member')
      rw [same, head_ih inHead inHead', arguments, beq_def, beq_def, Term.beq]
    | boolean => cases hu
    | _ => simp [same, beq_def, Term.beq]
  | boolean => cases ht
  | _ =>
    cases u with
    | boolean => cases hu
    | _ => simp [same, beq_def, Term.beq]

theorem canonical_canonical (t : Term) : t.canonical.canonical = t.canonical := by
  induction t using Term.induct with
  | real x => rw [canonical, canonical, Binary64.canonical_canonical]
  | app head args head_ih ih =>
    rw [canonical_app, canonical_app, head_ih, List.map_map]
    exact congrArg _ (List.map_congr_left ih)
  | _ => rfl

/-- What reads the same off every canonical form reads the same off terms of one canonical form. -/
theorem eq_of_canonical {β : Type} {f : Term → β} (read : ∀ t, f t.canonical = f t) {t u : Term}
    (same : t.canonical = u.canonical) : f t = f u := by
  rw [← read t, same, read u]

theorem beq_canonical {h : Term} (free : h.isTruthFree = true) (t : Term) :
    (h == t.canonical) = (h == t) := by
  rw [← same_eq_beq (.inl free), ← same_eq_beq (.inl free)]
  exact same_congr rfl (canonical_canonical t)

theorem canonical_beq {h : Term} (free : h.isTruthFree = true) (t : Term) :
    (t.canonical == h) = (t == h) := by
  rw [← same_eq_beq (.inr free), ← same_eq_beq (.inr free)]
  exact same_congr (canonical_canonical t) rfl

theorem isSymbol_canonical {name : String} (other : ∀ b, name ≠ truthName b) (t : Term) :
    t.canonical.isSymbol name = t.isSymbol name := by
  cases t with
  | boolean b => simpa [canonical, isSymbol, symbol?] using (other b).symm
  | _ => rfl

theorem isCall_canonical {name : String} (other : ∀ b, name ≠ truthName b) (t : Term) :
    t.canonical.isCall name = t.isCall name := by
  cases t with
  | app head args =>
    rw [canonical_app]
    exact isSymbol_canonical other head
  | _ => rfl

theorem isSequence_canonical (t : Term) : t.canonical.isSequence = t.isSequence :=
  isCall_canonical (by decide) t

theorem args_canonical (t : Term) : t.canonical.args = t.args.map canonical := by
  cases t with
  | app head args =>
    rw [canonical_app]
    rfl
  | _ => rfl

theorem items_canonical (t : Term) : t.canonical.items = t.items.map canonical := by
  rw [items, items, isSequence_canonical, args_canonical]
  split <;> rfl

theorem isEmptySequence_canonical (t : Term) : t.canonical.isEmptySequence = t.isEmptySequence := by
  have call : t.canonical.isCall "Sequence" = t.isCall "Sequence" := isSequence_canonical t
  rw [isEmptySequence, isEmptySequence, isCallWith, isCallWith, call, args_canonical, List.length_map]

theorem isHeadedBy_canonical {h : Term} (free : h.isTruthFree = true) (t : Term) :
    t.canonical.isHeadedBy h = t.isHeadedBy h := by
  cases t with
  | app head args =>
    rw [canonical_app]
    exact canonical_beq free head
  | _ => rfl

end Term

end TermRewriting
