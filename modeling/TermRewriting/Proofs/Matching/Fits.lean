import TermRewriting.Pattern.Match
import TermRewriting.Proofs.Term.Plain

/-! When a run of siblings fits a pattern under an assignment of terms to variables, said without
any search. The assignment is fixed from the start; a search has to find it. -/

namespace TermRewriting

abbrev Assignment := String → Option Term

namespace Bindings

def Agrees (b : Bindings) (σ : Assignment) : Prop := ∀ x v, b.get? x = some v → σ x = some v

def IsExact (b : Bindings) : Prop := ∀ x v, b.get? x = some v → v.isExact = true

/-- What a match may do to the bindings: they are kept, and only variables with these names are
bound anew. -/
structure Grows (names : List String) (b m : Bindings) : Prop where
  kept : b.Agrees m.get?
  exact : b.IsExact → m.IsExact
  named : ∀ x, (m.get? x).isSome → (b.get? x).isSome ∨ x ∈ names

theorem optionOf?_optionMark_append (name : String) : optionOf? (optionMark ++ name) = some name := by
  have marked : optionMark.toList.isPrefixOf (optionMark ++ name).toList = true := by
    simp [String.toList_append]
  have rest : (optionMark ++ name).toList.drop optionMark.length = name.toList := by
    simp [String.toList_append, ← String.length_toList]
  rw [optionOf?, if_pos marked, rest, String.ofList_toList]

theorem agrees_empty (σ : Assignment) : empty.Agrees σ := fun _ _ h => nomatch h

theorem isExact_empty : empty.IsExact := fun _ _ h => nomatch h

theorem Agrees.bind {b : Bindings} {σ : Assignment} (h : b.Agrees σ) {x : String} {v : Term}
    (value : σ x = some v) : (b.bind x v).Agrees σ := by
  intro y u bound
  rw [get?_bind] at bound
  split at bound
  · next eq => rw [eq, value, bound]
  · exact h y u bound

theorem Grows.refl (names : List String) (b : Bindings) : b.Grows names b :=
  ⟨fun _ _ h => h, id, fun _ h => .inl h⟩

theorem Grows.trans {names names' : List String} {b m n : Bindings} (first : b.Grows names m)
    (second : m.Grows names' n) : b.Grows (names ++ names') n where
  kept x v h := second.kept x v (first.kept x v h)
  exact h := second.exact (first.exact h)
  named x h := by
    rcases second.named x h with h | member
    · rcases first.named x h with h | member
      · exact .inl h
      · exact .inr (List.mem_append_left names' member)
    · exact .inr (List.mem_append_right names member)

theorem Grows.mono {names names' : List String} {b m : Bindings} (h : b.Grows names m)
    (sub : names ⊆ names') : b.Grows names' m :=
  ⟨h.kept, h.exact, fun x bound => (h.named x bound).imp_right (sub ·)⟩

theorem grows_bind {b : Bindings} {x : String} {v : Term} (free : b.get? x = none)
    (exact : v.isExact = true) : b.Grows [x] (b.bind x v) where
  kept y u bound := by
    rw [get?_bind, if_neg]
    · exact bound
    · rintro rfl
      simp [free] at bound
  exact h y u bound := by
    rw [get?_bind] at bound
    split at bound
    · exact Option.some.inj bound ▸ exact
    · exact h y u bound
  named y bound := by
    rw [get?_bind] at bound
    split at bound
    · next eq => exact .inr (by simp [eq])
    · exact .inl bound

end Bindings

namespace Pattern

mutual

def names : Pattern → List String
  | .named name inner => name :: inner.names
  | .optional inner _ | .hold inner | .test inner _ | .condition inner _ | .repeated inner _ _ =>
    inner.names
  | .alternatives choices => namesOfAll choices
  | .except excluded fallback => excluded.names ++ fallback.names
  | .compound head elements => head.names ++ namesOfAll elements
  | .wildcard _ _ | .verbatim _ | .options _ _ | .literal _ => []

def namesOfAll : List Pattern → List String
  | [] => []
  | p :: ps => p.names ++ namesOfAll ps

end

variable {test : Term → Term → Bool} {σ τ : Assignment}

mutual

/-- The run fits the pattern; tests are decided by `test`. Patterns whose matches depend on more
than the assignment fit nothing here. -/
def Fits (test : Term → Term → Bool) (σ : Assignment) : Pattern → List Term → Prop
  | .wildcard span head, run => span.width.admits run.length = true ∧ ∀ t ∈ run, headFits head t = true
  | .named name inner, run => σ name = some (.ofRun run) ∧ Fits test σ inner run
  | .alternatives choices, run => FitsAny test σ choices run
  | .hold inner, run => Fits test σ inner run
  | .test inner predicate, run => Fits test σ inner run ∧ test predicate (.ofRun run) = true
  | .repeated inner least most, run =>
    Width.admits ⟨least, most⟩ run.length = true ∧ ∀ t ∈ run, Fits test σ inner [t]
  | .literal v, run => run = [v]
  | .compound head elements, run =>
    ∃ h args, run = [.app h args] ∧ Fits test σ head [h] ∧ FitsRow test σ elements args
  | _, _ => False

def FitsAny (test : Term → Term → Bool) (σ : Assignment) : List Pattern → List Term → Prop
  | [], _ => False
  | p :: ps, run => Fits test σ p run ∨ FitsAny test σ ps run

/-- Successive runs of a row of siblings fit the elements in turn. -/
def FitsRow (test : Term → Term → Bool) (σ : Assignment) : List Pattern → List Term → Prop
  | [], row => row = []
  | p :: ps, row => ∃ run later, row = run ++ later ∧ Fits test σ p run ∧ FitsRow test σ ps later

end

theorem fitsAny_iff {ps : List Pattern} {run : List Term} :
    FitsAny test σ ps run ↔ ∃ p ∈ ps, Fits test σ p run := by
  induction ps with
  | nil => simp [FitsAny]
  | cons p ps ih => simp [FitsAny, ih]

theorem FitsRow.imp {ps : List Pattern}
    (imp : ∀ p ∈ ps, ∀ run, Fits test σ p run → Fits test τ p run) {row : List Term}
    (h : FitsRow test σ ps row) : FitsRow test τ ps row := by
  induction ps generalizing row with
  | nil => exact h
  | cons p ps ih =>
    obtain ⟨run, later, rfl, fits, rest⟩ := h
    exact ⟨run, later, rfl, imp p (by simp) run fits, ih (fun q member => imp q (by simp [member])) rest⟩

theorem Fits.mono (le : ∀ x v, σ x = some v → τ x = some v) {p : Pattern} {run : List Term}
    (h : Fits test σ p run) : Fits test τ p run := by
  induction p using Pattern.induct generalizing run with
  | named name inner ih => exact ⟨le _ _ h.1, ih h.2⟩
  | alternatives choices ih =>
    obtain ⟨p, member, fits⟩ := fitsAny_iff.mp h
    exact fitsAny_iff.mpr ⟨p, member, ih p member fits⟩
  | hold inner ih => exact ih h
  | test inner predicate ih => exact ⟨ih h.1, h.2⟩
  | repeated inner least most ih => exact ⟨h.1, fun t member => ih (h.2 t member)⟩
  | compound head elements head_ih ih =>
    obtain ⟨h, args, rfl, fits, row⟩ := h
    exact ⟨h, args, rfl, head_ih fits, row.imp fun p member _ => ih p member⟩
  | _ => exact h

end Pattern

namespace Width

theorem admits_iff {w : Width} {n : Nat} :
    w.admits n = true ↔ w.least ≤ n ∧ w.most.all (n ≤ ·) = true := by
  simp [admits]

theorem admits_join {v w : Width} {n : Nat} (h : v.admits n = true ∨ w.admits n = true) :
    (v.join w).admits n = true := by
  obtain ⟨least, most⟩ := v
  obtain ⟨least', most'⟩ := w
  simp only [admits_iff, join] at h ⊢
  cases most <;> cases most' <;> simp at h ⊢ <;> omega

theorem admits_add {v w : Width} {m n : Nat} (hv : v.admits m = true) (hw : w.admits n = true) :
    (v.add w).admits (m + n) = true := by
  obtain ⟨least, most⟩ := v
  obtain ⟨least', most'⟩ := w
  simp only [admits_iff, add] at hv hw ⊢
  cases most <;> cases most' <;> simp at hv hw ⊢ <;> omega

end Width

namespace Pattern

variable {test : Term → Term → Bool} {σ : Assignment}

theorem least_join (v w : Width) : (v.join w).least = min v.least w.least := rfl

theorem least_widthOfAny_le {ps : List Pattern} {p : Pattern} (member : p ∈ ps) :
    (widthOfAny ps).least ≤ p.width.least := by
  match ps, member with
  | [q], member =>
    obtain rfl := List.mem_singleton.mp member
    exact Nat.le_refl _
  | q :: r :: ps, member =>
    rw [widthOfAny, least_join]
    rcases List.mem_cons.mp member with rfl | later
    · exact Nat.min_le_left ..
    · exact Nat.le_trans (Nat.min_le_right ..) (least_widthOfAny_le later)

theorem admits_widthOfAny {ps : List Pattern} {p : Pattern} {n : Nat} (member : p ∈ ps)
    (h : p.width.admits n = true) : (widthOfAny ps).admits n = true := by
  match ps, member with
  | [q], member =>
    obtain rfl := List.mem_singleton.mp member
    exact h
  | q :: r :: ps, member =>
    rcases List.mem_cons.mp member with rfl | later
    · exact Width.admits_join (.inl h)
    · exact Width.admits_join (.inr (admits_widthOfAny later h))

theorem Fits.admits {p : Pattern} {run : List Term} (h : Fits test σ p run) :
    p.width.admits run.length = true := by
  induction p using Pattern.induct generalizing run with
  | wildcard span head => exact h.1
  | named name inner ih => exact ih h.2
  | alternatives choices ih =>
    obtain ⟨p, member, fits⟩ := fitsAny_iff.mp h
    exact admits_widthOfAny member (ih p member fits)
  | hold inner ih => exact ih h
  | test inner predicate ih => exact ih h.1
  | repeated inner least most ih => exact h.1
  | compound head elements head_ih ih =>
    obtain ⟨h, args, rfl, -, -⟩ := h
    rfl
  | literal v =>
    obtain rfl : run = [v] := h
    rfl
  | _ => exact h.elim

theorem FitsRow.admits {ps : List Pattern} {row : List Term} (h : FitsRow test σ ps row) :
    (totalWidth ps).admits row.length = true := by
  induction ps generalizing row with
  | nil =>
    obtain rfl : row = [] := h
    rfl
  | cons p ps ih =>
    obtain ⟨run, later, rfl, fits, rest⟩ := h
    rw [List.length_append]
    exact Width.admits_add fits.admits (ih rest)

theorem FitsRow.perm {ps qs : List Pattern} (perm : ps.Perm qs) {row : List Term}
    (h : FitsRow test σ ps row) : ∃ row', row'.Perm row ∧ FitsRow test σ qs row' := by
  induction perm generalizing row with
  | nil => exact ⟨row, .refl _, h⟩
  | cons p _ ih =>
    obtain ⟨run, later, rfl, fits, rest⟩ := h
    obtain ⟨later', permLater, rest⟩ := ih rest
    exact ⟨run ++ later', permLater.append_left run, run, later', rfl, fits, rest⟩
  | swap p q ps =>
    obtain ⟨run, _, rfl, fits, run', later, rfl, fits', rest⟩ := h
    refine ⟨run' ++ (run ++ later), ?_, run', _, rfl, fits', run, later, rfl, fits, rest⟩
    rw [← List.append_assoc, ← List.append_assoc]
    exact List.perm_append_comm.append_right later
  | trans _ _ ih ih' =>
    obtain ⟨row', permRow, rest⟩ := ih h
    obtain ⟨row'', permRow', rest⟩ := ih' rest
    exact ⟨row'', permRow'.trans permRow, rest⟩

/-- A simple pattern is matched against its term alone: it has no defaults, options, exceptions or
conditions, and no head in it has attributes. -/
inductive Simple (ev : Evaluator) : Pattern → Prop
  | wildcard (span : Span) (head : Option Term) : Simple ev (.wildcard span head)
  | named {inner : Pattern} (name : String) : Simple ev inner → Simple ev (.named name inner)
  | alternatives {choices : List Pattern} :
    (∀ p ∈ choices, Simple ev p) → Simple ev (.alternatives choices)
  | hold {inner : Pattern} : Simple ev inner → Simple ev (.hold inner)
  | test {inner : Pattern} (predicate : Term) : Simple ev inner → Simple ev (.test inner predicate)
  | repeated {inner : Pattern} (least : Nat) (most : Option Nat) :
    Simple ev inner → Simple ev (.repeated inner least most)
  | literal {t : Term} : t.isPlain = true → Simple ev (.literal t)
  | compound {head : Pattern} {elements : List Pattern} :
    head.attributes ev = {} → head.symbol? ≠ some "Sequence" → Simple ev head →
      (∀ p ∈ elements, Simple ev p) → Simple ev (.compound head elements)

variable {ev : Evaluator}

theorem Simple.optionalDefault? {p : Pattern} (h : p.Simple ev) : p.optionalDefault? = none := by
  induction h with
  | named _ _ ih => exact ih
  | _ => rfl

/-- No member of a run that fits is ruled out beforehand. -/
theorem Simple.mayMatch {p : Pattern} (simple : p.Simple ev) {run : List Term}
    (h : Fits test σ p run) : ∀ t ∈ run, p.mayMatch t = true := by
  induction simple generalizing run with
  | wildcard span head =>
    intro t member
    cases head with
    | none => rfl
    | some head => simpa [headFits, Pattern.mayMatch] using h.2 t member
  | named name _ ih => exact ih h.2
  | alternatives | repeated | compound => exact fun _ _ => rfl
  | hold _ ih => exact ih h
  | test predicate _ ih => exact ih h.1
  | literal plain =>
    intro t member
    obtain rfl : run = [_] := h
    obtain rfl := List.mem_singleton.mp member
    exact (Term.beq_iff_eq_of_isExact (Term.isExact_of_isPlain plain) _).mpr rfl

end Pattern

end TermRewriting
