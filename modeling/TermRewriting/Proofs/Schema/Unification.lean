import TermRewriting.Proofs.Matching.Strategy
import TermRewriting.Proofs.Schema.Distinct

/-! Matching a schema is unification with sequence variables: the matches listed are the assignments
of its variables that turn the schema into the term, each of them once. -/

namespace TermRewriting

/-- The bindings give a value to each variable of the schema and to nothing else, every wildcard
admits the value, and the schema filled in with the values is the term. -/
structure Bindings.Unifies (σ : Bindings) (s : Schema) (t : Term) : Prop where
  domain : ∀ x, (σ.get? x).isSome ↔ x ∈ s.names
  admitted : ∀ w ∈ s.wildcards, w.AdmittedBy σ.get?
  equal : (s.skeleton.substitute σ == t) = true

namespace Schema

open Pattern

variable {ev : Evaluator} {test : Term → Term → Bool} {s : Schema} {b σ : Bindings} {t : Term}

theorem isSome_of_admittedBy {τ : Assignment} (admitted : ∀ w ∈ s.wildcards, w.AdmittedBy τ)
    {x : String} (member : x ∈ s.names) : (τ x).isSome = true := by
  obtain ⟨w, inSchema, rfl⟩ := List.mem_map.mp member
  obtain ⟨run, value, -⟩ := admitted w inSchema
  simp [value]

/-- Filling in is unifying, for bindings of no more than the variables. -/
theorem unifies_iff (apart : s.NamesApart) (plain : t.isPlain = true)
    (domain : ∀ x, (b.get? x).isSome → x ∈ s.names) :
    b.Unifies s t ↔ Fits test b.get? s.toPattern [t] := by
  have alone := apart.leavesAlone domain
  have notSequence := Term.isSequence_of_isPlain plain
  have equal : (s.skeleton.substitute b == t) = true ↔ s.skeleton.substitute b = t :=
    Term.beq_iff_eq_of_isExact (Term.isExact_of_isPlain plain) _
  rw [fits_iff alone (by simpa using plain)]
  constructor
  · intro h
    have filled : s.skeleton.substitute b = t := equal.mp h.equal
    exact ⟨h.admitted, (substituteArgs_eq_singleton alone h.admitted notSequence).mpr filled⟩
  · rintro ⟨admitted, filled⟩
    have whole := (substituteArgs_eq_singleton alone admitted notSequence).mp filled
    exact ⟨fun x => ⟨domain x, isSome_of_admittedBy admitted⟩, admitted, equal.mpr whole⟩

/-- Only the values count, not how they are stored. -/
theorem unifies_congr (apart : s.NamesApart) (plain : t.isPlain = true) (same : b.get? = σ.get?)
    (h : b.Unifies s t) : σ.Unifies s t := by
  have fits : Fits (fun _ _ => true) b.get? s.toPattern [t] :=
    (unifies_iff apart plain fun x => (h.domain x).mp).mp h
  refine (unifies_iff apart plain fun x => ?_).mpr (same ▸ fits)
  rw [← same]
  exact (h.domain x).mp

/-- The matches found from nothing bind variables of the schema only, and the term fits it. -/
theorem unifies_of_mem (bare : ∀ name, ev.attributes name = {}) (plain : s.toTerm.isPlain = true)
    (apart : s.NamesApart) (plainTerm : t.isPlain = true) {c : Context} {m : Match}
    (found : m ∈ (search ev s.toPattern c t .empty).values) : m.bindings.Unifies s t := by
  obtain ⟨grows, fits⟩ := (simple_toPattern bare plain).sound c [t] .empty m (by simpa using plainTerm)
    Bindings.isExact_empty found
  refine (unifies_iff apart plainTerm fun x bound => ?_).mpr fits
  rw [← names_toPattern]
  exact (grows.named x bound).resolve_left (by simp [Bindings.get?, Bindings.empty])

theorem mem_of_unifies (bare : ∀ name, ev.attributes name = {}) (plain : s.toTerm.isPlain = true)
    (apart : s.NamesApart) (plainTerm : t.isPlain = true) (c : Context) (unifies : σ.Unifies s t) :
    ∃ m ∈ (search ev s.toPattern c t .empty).values, m.bindings.get? = σ.get? := by
  have fits : Fits (testHolds ev) σ.get? s.toPattern [t] :=
    (unifies_iff apart plainTerm fun x => (unifies.domain x).mp).mp unifies
  obtain ⟨m, found, agrees⟩ := (simple_toPattern bare plain).complete c [t] .empty σ.get?
    (by simpa using plainTerm) (Bindings.agrees_empty _) fits
  refine ⟨m, found, funext fun x => ?_⟩
  cases bound : m.bindings.get? x with
  | some v => exact (agrees x v bound).symm
  | none =>
    have unbound : x ∉ s.names := fun member => by
      have := ((unifies_of_mem bare plain apart plainTerm found).domain x).mpr member
      simp [bound] at this
    rw [← unifies.domain, Option.not_isSome_iff_eq_none] at unbound
    exact unbound.symm

/-- A schema that is written out is read as a pattern whose list of all matches has no assignment
twice, and has exactly those assignments that unify the schema with the term. -/
theorem allMatches_iff_unifies (bare : ∀ name, ev.attributes name = {}) (ordinary : s.isOrdinary = true)
    (plain : s.toTerm.isPlain = true) (apart : s.NamesApart) (plainTerm : t.isPlain = true) (j : Journal) :
    ∃ p, Pattern.compile s.toTerm = .ok p ∧
      ((p.allMatches ev t j).1.map Bindings.get?).Nodup ∧
      ∀ σ : Bindings, σ.get? ∈ (p.allMatches ev t j).1.map Bindings.get? ↔ σ.Unifies s t := by
  refine ⟨s.toPattern, compileAt_toTerm ordinary [], ?_⟩
  rw [allMatches_eq, s.explicit_toPattern.answers_solutions, List.map_map]
  constructor
  · rw [List.Nodup, List.pairwise_map]
    exact (distinct_toPattern bare plain {} [t] .empty (by simpa using plainTerm)
      Bindings.isExact_empty).imp Assignment.Conflicts.ne
  · intro σ
    rw [List.mem_map]
    constructor
    · rintro ⟨m, found, same⟩
      exact unifies_congr apart plainTerm same (unifies_of_mem bare plain apart plainTerm found)
    · exact mem_of_unifies bare plain apart plainTerm {}

def repeatedRun : Schema :=
  .app (.atom (.symbol "f") rfl)
    [.wildcard ⟨"x", .many, none⟩, .wildcard ⟨"x", .one, none⟩, .wildcard ⟨"y", .any, none⟩]

/-- Matching `f[x__, x_, y___]` against `f[1, 1, 2]` lists the unifiers of the two. -/
theorem allMatches_repeatedRun :
    ∃ p, Pattern.compile repeatedRun.toTerm = .ok p ∧
      ((p.allMatches .bare (.call "f" [.integer 1, .integer 1, .integer 2]) {}).1.map
        Bindings.get?).Nodup ∧
      ∀ σ : Bindings,
        σ.get? ∈ (p.allMatches .bare (.call "f" [.integer 1, .integer 1, .integer 2]) {}).1.map
          Bindings.get? ↔ σ.Unifies repeatedRun (.call "f" [.integer 1, .integer 1, .integer 2]) :=
  allMatches_iff_unifies (fun _ => rfl) (by decide) (by decide) ⟨by decide, by decide⟩ (by decide) {}

end Schema

end TermRewriting
