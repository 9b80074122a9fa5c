import Mathlib.Data.List.Forall2
import Mathlib.Logic.Relator
import TermRewriting.Proofs.Search.All

/-! Searches that run in parallel. They find answers that are related one by one, report the same
notices in between, and ask for the same options in the same places, under cells that belong together.
From journals that keep the same for such cells, they come to as many answers. -/

namespace TermRewriting.Search

variable {α α' β β' ι ι' : Type} {C : Position → Position → Prop} {R R' : α → α' → Prop}
  {Q : β → β' → Prop} {T : ι → ι' → Prop} {s : Search α} {s' : Search α'}

inductive Parallel (C : Position → Position → Prop) (R : α → α' → Prop) : Search α → Search α' → Prop
  | done : Parallel C R .done .done
  | found {a : α} {a' : α'} {next : Unit → Search α} {next' : Unit → Search α'} : R a a' →
    Parallel C R (next ()) (next' ()) → Parallel C R (.found a next) (.found a' next')
  | note (n : Notice) {next : Unit → Search α} {next' : Unit → Search α'} :
    Parallel C R (next ()) (next' ()) → Parallel C R (.note n next) (.note n next')
  | inherit {cell cell' : Position} (declared : Options) {next : Options → Search α}
    {next' : Options → Search α'} : C cell cell' → (∀ options, Parallel C R (next options) (next' options)) →
      Parallel C R (.inherit cell declared next) (.inherit cell' declared next')

theorem parallel_one {a : α} {a' : α'} (related : R a a') : Parallel C R (one a) (one a') :=
  .found related .done

theorem parallel_of_closed {R : α → α → Prop} (closed : s.Closed) (refl : ∀ a, R a a) : Parallel C R s s := by
  induction s with
  | done => exact .done
  | found a next ih => exact .found (refl a) (ih () closed)
  | note n next ih => exact .note n (ih () closed)
  | inherit cell declared next => exact closed.elim

theorem Parallel.imp (h : Parallel C R s s') (imp : ∀ a a', R a a' → R' a a') : Parallel C R' s s' := by
  induction h with
  | done => exact .done
  | found related _ ih => exact .found (imp _ _ related) ih
  | note n _ ih => exact .note n ih
  | inherit declared cells _ ih => exact .inherit declared cells ih

/-- What holds of all answers of the second search may be assumed of related answers. -/
theorem Parallel.and_all {P : α' → Prop} (h : Parallel C R s s') (all : All P s') :
    Parallel C (fun a a' => R a a' ∧ P a') s s' := by
  induction h with
  | done => exact .done
  | found related _ ih => exact .found ⟨related, all.1⟩ (ih all.2)
  | note n _ ih => exact .note n (ih all)
  | inherit declared cells _ ih => exact .inherit declared cells fun options => ih options (all options)

theorem Parallel.ite {c c' : Prop} [Decidable c] [Decidable c'] (same : c ↔ c') {t : Search α}
    {t' : Search α'} (yes : c → Parallel C R s s') (no : ¬c → Parallel C R t t') :
    Parallel C R (if c then s else t) (if c' then s' else t') := by
  by_cases h : c
  · rw [if_pos h, if_pos (same.mp h)]
    exact yes h
  · rw [if_neg h, if_neg (mt same.mpr h)]
    exact no h

theorem Parallel.append (h : Parallel C R s s') {t : Unit → Search α} {t' : Unit → Search α'}
    (later : Parallel C R (t ()) (t' ())) : Parallel C R (s.append t) (s'.append t') := by
  induction h with
  | done => exact later
  | found related _ ih => exact .found related ih
  | note n _ ih => exact .note n ih
  | inherit declared cells _ ih => exact .inherit declared cells ih

theorem Parallel.bind (h : Parallel C R s s') {k : α → Search β} {k' : α' → Search β'}
    (each : ∀ a a', R a a' → Parallel C Q (k a) (k' a')) : Parallel C Q (s.bind k) (s'.bind k') := by
  induction h with
  | done => exact .done
  | found related _ ih => exact (each _ _ related).append ih
  | note n _ ih => exact .note n ih
  | inherit declared cells _ ih => exact .inherit declared cells ih

theorem Parallel.map (h : Parallel C R s s') {f : α → β} {f' : α' → β'}
    (each : ∀ a a', R a a' → Q (f a) (f' a')) : Parallel C Q (s.map f) (s'.map f') := by
  rw [map_eq_bind, map_eq_bind]
  exact h.bind fun a a' related => parallel_one (each a a' related)

theorem Parallel.filter (h : Parallel C R s s') {holds : α → Bool} {holds' : α' → Bool}
    (same : ∀ a a', R a a' → holds a = holds' a') : Parallel C R (s.filter holds) (s'.filter holds') := by
  induction h with
  | done => exact .done
  | found related _ ih =>
    simp only [Search.filter, same _ _ related]
    exact .ite Iff.rfl (fun _ => .found related ih) fun _ => ih
  | note n _ ih => exact .note n ih
  | inherit declared cells _ ih => exact .inherit declared cells ih

theorem Parallel.barring (h : Parallel C R s s') {t : Unit → Search β} {t' : Unit → Search β'}
    (later : Parallel C Q (t ()) (t' ())) : Parallel C Q (s.barring t) (s'.barring t') := by
  induction h with
  | done => exact later
  | found => exact .done
  | note n _ ih => exact .note n ih
  | inherit declared cells _ ih => exact .inherit declared cells ih

theorem Parallel.thread {step : β → ι → Search β} {step' : β' → ι' → Search β'} {as : List ι} {as' : List ι'}
    (items : List.Forall₂ T as as')
    (each : ∀ a a', T a a' → ∀ b b', Q b b' → Parallel C Q (step b a) (step' b' a')) {b : β} {b' : β'}
    (start : Q b b') : Parallel C Q (thread step as b) (thread step' as' b') := by
  induction items generalizing b b' with
  | nil => exact parallel_one start
  | cons first _ ih => exact (each _ _ first b b' start).bind fun c c' related => ih related

theorem Parallel.asksOnly (h : Parallel C R s s') : s'.AsksOnly fun cell' _ => ∃ cell, C cell cell' := by
  induction h with
  | done => trivial
  | found _ _ ih | note _ _ ih => exact ih
  | inherit declared cells _ ih => exact ⟨⟨_, cells⟩, ih⟩

/-- The same is kept for cells that belong together. -/
def KeepAlike (C : Position → Position → Prop) (kept kept' : List (Position × Options)) : Prop :=
  ∀ cell cell', C cell cell' → kept.lookup cell = kept'.lookup cell'

theorem KeepAlike.inherit (unique : Relator.BiUnique C) {j j' : Journal}
    (h : KeepAlike C j.inherited j'.inherited) {cell cell' : Position} (cells : C cell cell')
    (declared : Options) :
    (j.inherit cell declared).1 = (j'.inherit cell' declared).1 ∧
      KeepAlike C (j.inherit cell declared).2.inherited (j'.inherit cell' declared).2.inherited := by
  have here := h cell cell' cells
  cases kept : j'.inherited.lookup cell' with
  | some options =>
    simp only [Journal.inherit, here, kept, true_and]
    exact h
  | none =>
    simp only [Journal.inherit, here, kept, true_and]
    intro other other' others
    have same : other = cell ↔ other' = cell' :=
      ⟨fun eq => unique.2 (eq ▸ others) cells, fun eq => unique.1 (eq ▸ others) cells⟩
    rw [List.lookup_cons, List.lookup_cons]
    by_cases eq : other = cell
    · simp [eq, same.mp eq]
    · simpa [beq_false_of_ne eq, beq_false_of_ne (mt same.mpr eq)] using h other other' others

theorem Parallel.answers (unique : Relator.BiUnique C) (h : Parallel C R s s') {j j' : Journal}
    (kept : KeepAlike C j.inherited j'.inherited) : List.Forall₂ R (s.answers j).1 (s'.answers j').1 := by
  induction h generalizing j j' with
  | done => exact .nil
  | found related _ ih => exact .cons related (ih kept)
  | note n _ ih =>
    have notedAlike : KeepAlike C (j.note n).inherited (j'.note n).inherited := kept
    exact ih notedAlike
  | inherit declared cells _ ih =>
    obtain ⟨same, after⟩ := kept.inherit unique cells declared
    simp only [Search.answers, same]
    exact ih _ after

/-- A consumer that follows a strategy sees the same answers of both, and stops both for the same
reason. -/
theorem Parallel.run (unique : Relator.BiUnique C) {s s' : Search α} (h : Parallel C Eq s s') {j j' : Journal}
    (kept : KeepAlike C j.inherited j'.inherited) (strategy : Strategy α) :
    (s.run strategy j).seen = (s'.run strategy j').seen ∧ (s.run strategy j).stop = (s'.run strategy j').stop := by
  unfold Search.run
  generalize #[] = seen
  induction h generalizing seen j j' with
  | done => exact ⟨rfl, rfl⟩
  | @found a a' _ _ same _ ih =>
    subst same
    simp only [runFrom]
    cases strategy (seen.push a) with
    | some reason => exact ⟨rfl, rfl⟩
    | none => exact ih kept _
  | note n _ ih =>
    have notedAlike : KeepAlike C (j.note n).inherited (j'.note n).inherited := kept
    exact ih notedAlike seen
  | inherit declared cells _ ih =>
    obtain ⟨same, after⟩ := kept.inherit unique cells declared
    simp only [runFrom, same]
    exact ih _ after seen

theorem barring_map_left (f : α → ι) (s : Search α) (t : Unit → Search β) :
    (s.map f).barring t = s.barring t := by
  induction s with
  | done | found => rfl
  | note n next ih => simp only [Search.map, barring, ih]
  | inherit cell declared next ih => simp only [Search.map, barring, ih]

theorem map_barring (f : β → ι) (s : Search α) (t : Unit → Search β) :
    (s.barring t).map f = s.barring fun _ => (t ()).map f := by
  induction s with
  | done | found => rfl
  | note n next ih => simp only [Search.map, barring, ih]
  | inherit cell declared next ih => simp only [Search.map, barring, ih]

/-- If the first search has no answer, the second begins where the first one ends. -/
theorem run_barring_of_none {s : Search α} {j : Journal} (none : (s.answers j).1 = [])
    (t : Unit → Search β) (strategy : Strategy β) :
    (s.barring t).run strategy j = (t ()).run strategy (s.answers j).2 := by
  induction s generalizing j with
  | done => rfl
  | found a next => cases none
  | note n next ih => exact ih () none
  | inherit cell declared next ih => exact ih _ none

theorem run_barring_of_some {s : Search α} {j : Journal} (some : (s.answers j).1 ≠ [])
    (t : Unit → Search β) (strategy : Strategy β) :
    ((s.barring t).run strategy j).seen = #[] ∧ ((s.barring t).run strategy j).stop = none := by
  induction s generalizing j with
  | done => exact absurd rfl some
  | found a next => exact ⟨rfl, rfl⟩
  | note n next ih => exact ih () some
  | inherit cell declared next ih => exact ih _ some

/-- What is kept for a cell that a search does not ask for stays as it is. -/
theorem AsksOnly.lookup_answers {P : Position → Options → Prop} {s : Search α} (asks : s.AsksOnly P)
    {cell : Position} (other : ∀ declared, ¬P cell declared) (j : Journal) :
    (s.answers j).2.inherited.lookup cell = j.inherited.lookup cell := by
  induction s generalizing j with
  | done => rfl
  | found a next ih => exact ih () asks j
  | note n next ih => exact ih () asks (j.note n)
  | inherit asked declared next ih =>
    have apart : cell ≠ asked := fun same => other declared (same ▸ asks.1)
    simp only [answers, ih _ (asks.2 _)]
    unfold Journal.inherit
    split
    · rfl
    · simp [List.lookup_cons, beq_false_of_ne apart]

end TermRewriting.Search
