import TermRewriting.Proofs.Flat.Conservation
import TermRewriting.Proofs.Rule
import TermRewriting.Proofs.Schema.Substitution

/-! Replacement under a flat head. A rule that only takes an application of a flat head apart and
puts it together again keeps all arguments, whatever its matches take and leave over. -/

namespace TermRewriting

namespace Schema

def call (h : String) (args : List Schema) : Schema := .app (.atom (.symbol h) rfl) args

def isElementary : Schema → Bool
  | .atom _ _ => true
  | .wildcard w => w.head.isNone
  | .app _ _ => false

theorem elementary_toPattern {s : Schema} (h : s.isElementary = true) : s.toPattern.Elementary := by
  cases s with
  | atom t isAtom => exact .literal isAtom
  | wildcard w =>
    rw [toPattern, Option.isNone_iff_eq_none.mp h]
    exact .named ..
  | app => cases h

theorem isOrdinary_call {h : String} {ss : List Schema} (ordinary : Construct.ofName? h = none)
    (elementary : ∀ s ∈ ss, s.isElementary = true) : (call h ss).isOrdinary = true := by
  have each : areOrdinary ss = true := by
    refine areOrdinary_iff.mpr fun s member => ?_
    cases s with
    | app => exact absurd (elementary _ member) (by simp [isElementary])
    | _ => rfl
  simp [call, isOrdinary, toTerm, Construct.ofHead?, Term.symbol?, ordinary, each]

/-- The rule that replaces what the schema matches by what it is filled in to. -/
def toRule (s : Schema) : Rule := ⟨s.toPattern, s.toTerm, s.skeleton, false⟩

theorem make_toTerm {s : Schema} (ordinary : s.isOrdinary = true) (cell : Position) :
    Rule.make cell s.toTerm s.skeleton false = .ok s.toRule := by
  rw [Rule.make, compileAt_toTerm ordinary]
  rfl

theorem substituteArgs_skeletons {b : Bindings} {ss : List Schema}
    (alone : b.LeavesAlone (symbolsOfAll ss)) (elementary : ∀ s ∈ ss, s.isElementary = true) :
    Term.substituteArgs b (skeletons ss) = (toPatterns ss).flatMap (Pattern.filled b) := by
  induction ss with
  | nil => rfl
  | cons s ss ih =>
    have later := ih (alone.mono (List.subset_append_right ..)) fun s member =>
      elementary s (List.mem_cons_of_mem _ member)
    rw [skeletons, Term.substituteArgs_cons, later, toPatterns, List.flatMap_cons]
    congr 1
    cases s with
    | atom t isAtom =>
      exact (Term.substitute_atom isAtom (alone.mono (List.subset_append_left ..)).literal).2
    | wildcard w => simp [skeleton, toPattern, Pattern.filled, Term.substituteArgs]
    | app => exact absurd (elementary _ List.mem_cons_self) (by simp [isElementary])

end Schema

namespace Pattern

variable {ev : Evaluator} {h : String}

/-- Under its own flat head, an application is searched for by its arguments alone. -/
theorem values_flat (flat : (ev.attributes h).flat = true)
    (ps : List Pattern) (whole : Bool) (args : List Term) (b : Bindings) :
    (search ev (.compound (.literal (.symbol h)) ps) { whole } (.app (.symbol h) args) b).values =
      (Siblings.matchAll ⟨.symbol h, args, ev.attributes h, ps.length, whole⟩
        (elementsFrom ev 1 ps) b).values := by
  change (search ev _ { whole } (.call h args) b).values = _
  simp [search_call, flat]

theorem conserves_flat (flat : (ev.attributes h).flat = true) (notSequence : h ≠ "Sequence")
    {ps : List Pattern} (elementary : ∀ p ∈ ps, p.Elementary) {whole : Bool} {args : List Term}
    (plain : ∀ t ∈ args, t.isPlain = true) {m : Match}
    (found : m ∈ (search ev (.compound (.literal (.symbol h)) ps) { whole } (.app (.symbol h) args)
      .empty).values) :
    Siblings.Conserves (ev.attributes h).orderless h ps args .empty m := by
  rw [values_flat flat] at found
  refine (Siblings.conserves_distribute ev notSequence rfl (fun e member => ?_) plain
    Bindings.isExact_empty found).rearranged (Siblings.rearranged_map_pattern ev _ ps).symm
  obtain ⟨inElements, eq⟩ := Siblings.mem_inOrder_elementsFrom member
  exact ⟨elementary _ inElements, eq⟩

end Pattern

namespace Rule

variable {ev : Evaluator} {h : String} {ss : List Schema}

/-- Putting leftover arguments around a replacement is flattening it into them. -/
theorem flattenUnder_result? {r : Rule} (immediate : r.delayed = false) {m : Match} {args : List Term}
    {filled : List Term} (notSequence : h ≠ "Sequence")
    (substituted : r.rhs.substitute m.bindings = .app (.symbol h) filled) {result : Term}
    (produced : r.result? ev (.app (.symbol h) args) m = some result) :
    result.flattenUnder h = Term.flattenAll h (m.left.before ++ filled ++ m.left.after) := by
  unfold result? at produced
  split at produced
  · cases produced
  · obtain rfl := Option.some.inj produced
    have apart := Term.isSequence_app_symbol notSequence filled
    simp only [immediate, substituted, Bool.false_eq_true, if_false]
    split
    · next nothing =>
      simp only [Leftover.isEmpty, Bool.and_eq_true, List.isEmpty_iff] at nothing
      simp [nothing]
    · simp [surround, Term.head, Term.items_eq_singleton apart, Term.flattenAll]

section

variable (flat : (ev.attributes h).flat = true) (notSequence : h ≠ "Sequence")
  (elementary : ∀ s ∈ ss, s.isElementary = true) (apart : (Schema.call h ss).NamesApart)
  {args : List Term} (plain : ∀ t ∈ args, t.isPlain = true)
include flat notSequence elementary apart plain

theorem rearranged_of_result? {whole : Bool} {m : Match}
    (found : m ∈ ((Schema.call h ss).toPattern.search ev { whole } (.app (.symbol h) args)
      .empty).values) {result : Term}
    (produced : (Schema.call h ss).toRule.result? ev (.app (.symbol h) args) m = some result) :
    Rearranged (ev.attributes h).orderless (result.flattenUnder h)
        ((Term.app (.symbol h) args).flattenUnder h) ∧
      (m.left.before ++ m.left.after).Sublist args := by
  have each (p : Pattern) (member : p ∈ Schema.toPatterns ss) : p.Elementary := by
    obtain ⟨s, inList, rfl⟩ := Schema.mem_toPatterns.mp member
    exact Schema.elementary_toPattern (elementary s inList)
  have conserves := Pattern.conserves_flat flat notSequence each plain found
  have alone : m.bindings.LeavesAlone (Schema.call h ss).symbols := apart.leavesAlone fun x bound => by
    rw [← Schema.names_toPattern]
    exact (conserves.grows.named x bound).resolve_left (by simp [Bindings.get?, Bindings.empty])
  have substituted : (Schema.call h ss).toRule.rhs.substitute m.bindings =
      .app (.symbol h) ((Schema.toPatterns ss).flatMap (Pattern.filled m.bindings)) := by
    have head : Term.substitute m.bindings (.symbol h) = .symbol h := by
      simp [Term.substitute, alone.literal h (List.mem_append_left _ List.mem_cons_self)]
    rw [← Schema.substituteArgs_skeletons (alone.mono (List.subset_append_right ..)) elementary, ← head]
    exact Term.substitute_app alone.option ..
  rw [flattenUnder_result? rfl notSequence substituted produced, Term.flattenUnder_app_symbol]
  exact ⟨conserves.flattened, conserves.unmatched⟩

/-- A rule whose two sides are the same application of a flat head to elements keeps the arguments:
flattening a result gives the arguments of the term, in their order if that counts. The arguments
that the match left alone are some of those of the term in the order they had. -/
theorem rearranged_of_apply (ordinary : Construct.ofName? h = none) (cell : Position) :
    ∃ rule, Rule.make cell (Schema.call h ss).toTerm (Schema.call h ss).skeleton false = .ok rule ∧
      ∀ result j, (rule.apply ev (.app (.symbol h) args) false j).1 = some result ∨
          result ∈ (rule.applyList ev (.app (.symbol h) args) none j).1 →
        Rearranged (ev.attributes h).orderless (result.flattenUnder h)
            ((Term.app (.symbol h) args).flattenUnder h) ∧
          ∃ whole, ∃ m ∈ (rule.lhs.search ev { whole } (.app (.symbol h) args) .empty).values,
            rule.result? ev (.app (.symbol h) args) m = some result ∧
              (m.left.before ++ m.left.after).Sublist args := by
  have explicit := (Schema.call h ss).explicit_toPattern
  refine ⟨(Schema.call h ss).toRule,
    Schema.make_toTerm (Schema.isOrdinary_call ordinary elementary) cell, fun result j produced => ?_⟩
  obtain ⟨whole, isResult⟩ : ∃ whole, result ∈ ((Schema.call h ss).toRule.results ev
      (.app (.symbol h) args) whole).values := by
    rcases produced with applied | listed
    · exact ⟨false, mem_results_of_apply explicit applied⟩
    · exact ⟨true, mem_results_of_mem_applyList explicit listed⟩
  obtain ⟨m, found, produced⟩ := mem_results.mp isResult
  obtain ⟨rearranged, unmatched⟩ :=
    rearranged_of_result? flat notSequence elementary apart plain found produced
  exact ⟨rearranged, whole, m, found, produced, unmatched⟩

end

def sums : Evaluator :=
  { Evaluator.bare with
    attributes := fun name => if name = "Plus" then { flat := true, orderless := true } else {} }

/-- What `a + x__ -> a + x` makes of `b + a + c` is a sum of the same terms. -/
theorem rearranged_sum :
    ∃ rule,
      Rule.make [] (Schema.call "Plus" [.atom (.symbol "a") rfl, .wildcard ⟨"x", .many, none⟩]).toTerm
        (.call "Plus" [.symbol "a", .symbol "x"]) false = .ok rule ∧
      ∀ result j, (rule.apply sums (.call "Plus" [.symbol "b", .symbol "a", .symbol "c"]) false j).1 =
            some result ∨
          result ∈ (rule.applyList sums (.call "Plus" [.symbol "b", .symbol "a", .symbol "c"]) none j).1 →
        (result.flattenUnder "Plus").Perm [.symbol "b", .symbol "a", .symbol "c"] ∧
          ∃ whole, ∃ m ∈ (rule.lhs.search sums { whole }
              (.call "Plus" [.symbol "b", .symbol "a", .symbol "c"]) .empty).values,
            rule.result? sums (.call "Plus" [.symbol "b", .symbol "a", .symbol "c"]) m = some result ∧
              (m.left.before ++ m.left.after).Sublist [.symbol "b", .symbol "a", .symbol "c"] :=
  rearranged_of_apply rfl (by decide) (by decide) ⟨by decide, by decide⟩ (by decide) rfl []

end Rule

end TermRewriting
