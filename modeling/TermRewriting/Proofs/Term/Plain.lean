import TermRewriting.Term.Same

/-! Plain terms: those without reals, truth values and sequences. Two plain terms are the same only
if they are equal, and a run of plain siblings can be read off the term that stands for it. -/

namespace TermRewriting.Term

variable {holds holds' : Term → Bool}

mutual

def every (holds : Term → Bool) : Term → Bool
  | .app head args => holds (.app head args) && every holds head && everyAll holds args
  | t => holds t

def everyAll (holds : Term → Bool) : List Term → Bool
  | [] => true
  | t :: ts => every holds t && everyAll holds ts

end

theorem everyAll_iff {ts : List Term} :
    everyAll holds ts = true ↔ ∀ t ∈ ts, every holds t = true := by
  induction ts with
  | nil => simp [everyAll]
  | cons t ts ih => simp [everyAll, ih]

theorem every_app {head : Term} {args : List Term} :
    every holds (.app head args) = true ↔
      holds (.app head args) = true ∧ every holds head = true ∧ ∀ t ∈ args, every holds t = true := by
  simp [every, everyAll_iff, and_assoc]

theorem holds_of_every {t : Term} (h : every holds t = true) : holds t = true := by
  cases t with
  | app head args => exact (every_app.mp h).1
  | _ => exact h

theorem every_imp (imp : ∀ t, holds t = true → holds' t = true) {t : Term}
    (h : every holds t = true) : every holds' t = true := by
  induction t using Term.induct with
  | app head args head_ih ih =>
    obtain ⟨here, inHead, inArgs⟩ := every_app.mp h
    exact every_app.mpr ⟨imp _ here, head_ih inHead, fun t member => ih t member (inArgs t member)⟩
  | _ => exact imp _ h

/-- Neither a real nor a truth value of its own kind. -/
def isExactAtom : Term → Bool
  | .real _ | .boolean _ => false
  | _ => true

def isExact (t : Term) : Bool := t.every isExactAtom

def isPlain (t : Term) : Bool := t.every fun t => t.isExactAtom && !t.isSequence

theorem isExact_of_isPlain {t : Term} (h : t.isPlain = true) : t.isExact = true :=
  every_imp (fun _ h => (Bool.and_eq_true_iff.mp h).1) h

theorem isSequence_of_isPlain {t : Term} (h : t.isPlain = true) : t.isSequence = false := by
  simpa using (Bool.and_eq_true_iff.mp (holds_of_every h)).2

theorem isExact_app {head : Term} {args : List Term} :
    (app head args).isExact = true ↔ head.isExact = true ∧ ∀ t ∈ args, t.isExact = true := by
  simp [isExact, every_app, isExactAtom]

theorem isPlain_app {head : Term} {args : List Term} :
    (app head args).isPlain = true ↔
      head.isSymbol "Sequence" = false ∧ head.isPlain = true ∧ ∀ t ∈ args, t.isPlain = true := by
  simp [isPlain, every_app, isExactAtom, isSequence, isCall]

theorem isSequence_app_symbol {name : String} (h : name ≠ "Sequence") (args : List Term) :
    (app (symbol name) args).isSequence = false := by
  simpa [isSequence, isCall, isSymbol, symbol?] using h

theorem beqAll_iff_eq {ys : List Term} (h : ∀ y ∈ ys, ∀ x, (x == y) = true ↔ x = y) (xs : List Term) :
    beqAll xs ys = true ↔ xs = ys := by
  induction ys generalizing xs with
  | nil => cases xs <;> simp [beqAll]
  | cons y ys ih =>
    cases xs with
    | nil => simp [beqAll]
    | cons x xs =>
      have first : x.beq y = true ↔ x = y := h y (by simp) x
      simp [beqAll, first, ih fun z member => h z (by simp [member])]

/-- Structural equality is equality where there is no real to compare with. -/
theorem beq_iff_eq_of_isExact {u : Term} (h : u.isExact = true) (t : Term) :
    (t == u) = true ↔ t = u := by
  change t.beq u = true ↔ _
  induction u using Term.induct generalizing t with
  | real x => cases h
  | app head args head_ih ih =>
    obtain ⟨inHead, inArgs⟩ := isExact_app.mp h
    cases t with
    | app head' args' =>
      have arguments := beqAll_iff_eq (fun u member => ih u member (inArgs u member)) args'
      simp [Term.beq, head_ih inHead, arguments]
    | _ => simp [Term.beq]
  | _ => cases t <;> simp [Term.beq]

theorem sameAll_iff_eq {xs ys : List Term}
    (h : ∀ x ∈ xs, ∀ y, y.isExact = true → (x.same y = true ↔ x = y))
    (exact : ∀ y ∈ ys, y.isExact = true) : sameAll xs ys = true ↔ xs = ys := by
  induction xs generalizing ys with
  | nil => cases ys <;> simp [sameAll]
  | cons x xs ih =>
    cases ys with
    | nil => simp [sameAll]
    | cons y ys =>
      have later : sameAll xs ys = true ↔ xs = ys :=
        ih (fun z member => h z (by simp [member])) fun z member => exact z (by simp [member])
      simp [sameAll, h x (by simp) y (exact y (by simp)), later]

theorem same_iff_eq {t u : Term} (ht : t.isExact = true) (hu : u.isExact = true) :
    t.same u = true ↔ t = u := by
  induction t using Term.induct generalizing u with
  | real x => cases ht
  | boolean b => cases ht
  | app head args head_ih ih =>
    obtain ⟨inHead, inArgs⟩ := isExact_app.mp ht
    cases u with
    | app head' args' =>
      obtain ⟨inHead', inArgs'⟩ := isExact_app.mp hu
      have arguments := sameAll_iff_eq (fun t member _ => ih t member (inArgs t member)) inArgs'
      simp [same, head_ih inHead inHead', arguments]
    | boolean b => cases hu
    | _ =>
      rw [same.eq_4 _ _ (by simp) (by simp) (by simp)]
      exact beq_iff_eq_of_isExact hu _
  | _ =>
    cases u with
    | boolean b => cases hu
    | _ =>
      rw [same.eq_4 _ _ (by simp) (by simp) (by simp)]
      exact beq_iff_eq_of_isExact hu _

theorem same_self {t : Term} (h : t.isExact = true) : t.same t = true := (same_iff_eq h h).mpr rfl

theorem isHeadedBy_call (h : String) (args : List Term) : (call h args).isHeadedBy (.symbol h) = true :=
  (beq_iff_eq_of_isExact rfl (symbol h)).mpr rfl

/-- The term that stands for a run of siblings: one alone for itself, others in a sequence. -/
def ofRun : List Term → Term
  | [t] => t
  | ts => sequence ts

@[simp] theorem ofRun_singleton (t : Term) : ofRun [t] = t := rfl

theorem ofRun_of_length_ne_one {ts : List Term} (h : ts.length ≠ 1) : ofRun ts = sequence ts := by
  match ts with
  | [_] => exact absurd rfl h
  | [] | _ :: _ :: _ => rfl

theorem isExact_ofRun {ts : List Term} (h : ∀ t ∈ ts, t.isExact = true) : (ofRun ts).isExact = true := by
  match ts with
  | [t] => exact h t (by simp)
  | [] => rfl
  | _ :: _ :: _ => exact isExact_app.mpr ⟨rfl, h⟩

theorem items_ofRun {ts : List Term} (h : ∀ t ∈ ts, t.isSequence = false) : (ofRun ts).items = ts := by
  match ts with
  | [t] => exact items_eq_singleton (h t (by simp))
  | [] | _ :: _ :: _ => rfl

theorem isExact_ofRun_of_isPlain {ts : List Term} (h : ∀ t ∈ ts, t.isPlain = true) :
    (ofRun ts).isExact = true := isExact_ofRun fun t member => isExact_of_isPlain (h t member)

theorem items_ofRun_of_isPlain {ts : List Term} (h : ∀ t ∈ ts, t.isPlain = true) :
    (ofRun ts).items = ts := items_ofRun fun t member => isSequence_of_isPlain (h t member)

theorem ofRun_injective {ts us : List Term} (ht : ∀ t ∈ ts, t.isPlain = true)
    (hu : ∀ u ∈ us, u.isPlain = true) (eq : ofRun ts = ofRun us) : ts = us := by
  rw [← items_ofRun_of_isPlain ht, eq, items_ofRun_of_isPlain hu]

/-- No run but that of one term stands for a term that is no sequence. -/
theorem ofRun_eq_iff {ts : List Term} {t : Term} (h : t.isSequence = false) :
    ofRun ts = t ↔ ts = [t] := by
  constructor
  · intro eq
    match ts with
    | [u] => exact eq ▸ rfl
    | [] | _ :: _ :: _ => exact absurd (eq ▸ rfl) (Bool.eq_false_iff.mp h)
  · rintro rfl
    rfl

end TermRewriting.Term
