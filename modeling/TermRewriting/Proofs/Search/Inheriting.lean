import TermRewriting.Proofs.Search.All

/-! What holds of all answers of a search that asks for options of one kind only and is given options of
another. A journal that keeps options of the other kind gives such options, if what is asked for is of that
kind wherever nothing has been kept yet. -/

namespace TermRewriting

/-- All options that are kept are of that kind. -/
def Journal.KeepsOnly (A : Position → Options → Prop) (j : Journal) : Prop :=
  ∀ cell options, j.inherited.lookup cell = some options → A cell options

/-- Options that are asked for are of the kind that is given, where nothing has been kept yet. -/
def Journal.Accepts (B A : Position → Options → Prop) (j : Journal) : Prop :=
  ∀ cell declared, B cell declared → j.inherited.lookup cell = none → A cell declared

variable {B A : Position → Options → Prop} {j : Journal}

theorem Journal.KeepsOnly.inherit (keeps : j.KeepsOnly A) (accepts : j.Accepts B A) {cell : Position}
    {declared : Options} (asked : B cell declared) :
    A cell (j.inherit cell declared).1 ∧ (j.inherit cell declared).2.KeepsOnly A ∧
      (j.inherit cell declared).2.Accepts B A := by
  unfold Journal.inherit
  cases kept : j.inherited.lookup cell with
  | some options => exact ⟨keeps cell options kept, keeps, accepts⟩
  | none =>
    have given : A cell declared := accepts cell declared asked kept
    refine ⟨given, fun other options found => ?_, fun other options isAsked fresh => ?_⟩
    · simp only [List.lookup_cons] at found
      split at found
      · next same =>
        obtain rfl := Option.some.inj found
        exact beq_iff_eq.mp same ▸ given
      · exact keeps other options found
    · simp only [List.lookup_cons] at fresh
      split at fresh
      · cases fresh
      · exact accepts other options isAsked fresh

namespace Search

variable {α β : Type} {P Q : α → Prop}

/-- The search asks for options of the first kind only, and if it is given such of the second the property
holds of its answers. -/
def AllGiven (B A : Position → Options → Prop) (P : α → Prop) : Search α → Prop
  | .done => True
  | .found a next => P a ∧ AllGiven B A P (next ())
  | .note _ next => AllGiven B A P (next ())
  | .inherit cell declared next =>
    B cell declared ∧ ∀ options, A cell options → AllGiven B A P (next options)

theorem allGiven_done : AllGiven B A P .done := trivial

theorem allGiven_one {a : α} (h : P a) : AllGiven B A P (one a) := ⟨h, trivial⟩

theorem AllGiven.imp {s : Search α} (h : AllGiven B A P s) (imp : ∀ a, P a → Q a) : AllGiven B A Q s := by
  induction s with
  | done => trivial
  | found a next ih => exact ⟨imp a h.1, ih () h.2⟩
  | note n next ih => exact ih () h
  | inherit cell declared next ih => exact ⟨h.1, fun options given => ih options (h.2 options given)⟩

theorem AllGiven.ite {c : Prop} [Decidable c] {s t : Search α} (yes : c → AllGiven B A P s)
    (no : AllGiven B A P t) : AllGiven B A P (if c then s else t) := by
  split
  · next h => exact yes h
  · exact no

theorem AllGiven.append {s : Search α} (h : AllGiven B A P s) {t : Unit → Search α}
    (later : AllGiven B A P (t ())) : AllGiven B A P (s.append t) := by
  induction s with
  | done => exact later
  | found a next ih => exact ⟨h.1, ih () h.2⟩
  | note n next ih => exact ih () h
  | inherit cell declared next ih => exact ⟨h.1, fun options given => ih options (h.2 options given)⟩

theorem AllGiven.bind {P : β → Prop} {s : Search α} {f : α → Search β}
    (h : AllGiven B A (fun a => AllGiven B A P (f a)) s) : AllGiven B A P (s.bind f) := by
  induction s with
  | done => trivial
  | found a next ih => exact h.1.append (ih () h.2)
  | note n next ih => exact ih () h
  | inherit cell declared next ih => exact ⟨h.1, fun options given => ih options (h.2 options given)⟩

theorem AllGiven.map {P : β → Prop} {s : Search α} {f : α → β} (h : AllGiven B A (fun a => P (f a)) s) :
    AllGiven B A P (s.map f) := by
  rw [map_eq_bind]
  exact .bind (h.imp fun _ => allGiven_one)

theorem AllGiven.filter {s : Search α} (h : AllGiven B A P s) (holds : α → Bool) :
    AllGiven B A (fun a => P a ∧ holds a = true) (s.filter holds) := by
  induction s with
  | done => trivial
  | found a next ih => exact .ite (fun keep => ⟨⟨h.1, keep⟩, ih () h.2⟩) (ih () h.2)
  | note n next ih => exact ih () h
  | inherit cell declared next ih => exact ⟨h.1, fun options given => ih options (h.2 options given)⟩

theorem AllGiven.barring {P : β → Prop} {s : Search α} (h : AllGiven B A Q s) {t : Unit → Search β}
    (later : AllGiven B A P (t ())) : AllGiven B A P (s.barring t) := by
  induction s with
  | done => exact later
  | found a next ih => trivial
  | note n next ih => exact ih () h
  | inherit cell declared next ih => exact ⟨h.1, fun options given => ih options (h.2 options given)⟩

theorem allGiven_of_closed {s : Search α} (closed : s.Closed) (h : ∀ a ∈ s.values, P a) : AllGiven B A P s := by
  induction s with
  | done => trivial
  | found a next ih =>
    rw [values, List.forall_mem_cons] at h
    exact ⟨h.1, ih () closed h.2⟩
  | note n next ih => exact ih () closed h
  | inherit cell declared next => exact closed.elim

theorem AllGiven.answers {s : Search α} (h : AllGiven B A P s) (keeps : j.KeepsOnly A)
    (accepts : j.Accepts B A) : ∀ a ∈ (s.answers j).1, P a := by
  induction s generalizing j with
  | done => simp [Search.answers]
  | found a next ih =>
    simp only [Search.answers, List.mem_cons, forall_eq_or_imp]
    exact ⟨h.1, ih () h.2 keeps accepts⟩
  | note n next ih => exact ih () h keeps accepts
  | inherit cell declared next ih =>
    obtain ⟨given, keepsAfter, acceptsAfter⟩ := keeps.inherit accepts h.1
    exact ih _ (h.2 _ given) keepsAfter acceptsAfter

end Search

end TermRewriting
