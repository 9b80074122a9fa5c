import TermRewriting.Proofs.Schema.Substitution

/-! No match of a schema is found twice. Any two matches found bind some variable to different
values, and that remains so however the bindings grow. -/

namespace TermRewriting

/-- Some variable has different values in the two. -/
def Assignment.Conflicts (σ τ : Assignment) : Prop :=
  ∃ x v v', σ x = some v ∧ τ x = some v' ∧ v ≠ v'

theorem Assignment.Conflicts.ne {σ τ : Assignment} (h : σ.Conflicts τ) : σ ≠ τ := by
  rintro rfl
  obtain ⟨x, v, v', value, value', differ⟩ := h
  exact differ (Option.some.inj (value.symm.trans value'))

theorem Assignment.Conflicts.mono {b b' m m' : Bindings} (h : Conflicts b.get? b'.get?)
    (kept : b.Agrees m.get?) (kept' : b'.Agrees m'.get?) : Conflicts m.get? m'.get? := by
  obtain ⟨x, v, v', value, value', differ⟩ := h
  exact ⟨x, v, v', kept x v value, kept' x v' value', differ⟩

namespace Match

def Conflicts (m m' : Match) : Prop := Assignment.Conflicts m.bindings.get? m'.bindings.get?

end Match

namespace Pattern

/-- No two matches of a plain run agree. -/
def Distinct (matcher : Matcher) : Prop :=
  ∀ c run b, (∀ t ∈ run, t.isPlain = true) → b.IsExact →
    (matcher c (.ofRun run) b).values.Pairwise Match.Conflicts

/-- The length of a run can be read off the assignment under which it fits. -/
def Telling (p : Pattern) : Prop :=
  ∀ test σ τ run run', (∀ t ∈ run, t.isPlain = true) → (∀ t ∈ run', t.isPlain = true) →
    Fits test σ p run → Fits test τ p run' → run.length ≠ run'.length → Assignment.Conflicts σ τ

end Pattern

namespace Search

theorem pairwise_runs {α : Type} (xs : List α) (least : Nat) (most : Option Nat) (shortestFirst : Bool) :
    (runs xs least most false shortestFirst).values.Pairwise
      fun x y => x.chosen.length ≠ y.chosen.length := by
  simp only [runs, Bool.false_eq_true, if_false, List.range_one, values_bind, values_map,
    values_ofList, List.flatMap_singleton, List.pairwise_map, List.drop_zero, List.length_take]
  refine (sizes_nodup xs.length least most shortestFirst).imp_of_mem fun {n n'} member member' differ => ?_
  have bound := (le_largest.mp (mem_sizes.mp member).2).1
  have bound' := (le_largest.mp (mem_sizes.mp member').2).1
  rwa [Nat.min_eq_left bound, Nat.min_eq_left bound']

end Search

namespace Siblings

open Pattern

variable {ev : Evaluator} {s : Siblings} {elements : List (Element Matcher)}

theorem pairwise_splits (ordered : s.attributes.orderless = false) (whole : s.whole = true)
    (p : Pattern) (first last : Bool) (items : List Term) (b : Bindings) :
    (s.splits p first last items b).values.Pairwise fun x y => x.chosen.length ≠ y.chosen.length := by
  unfold splits
  dsimp only
  split
  · exact .nil
  · rw [if_pos (by simp [ordered]), whole, Bool.not_true, Bool.and_false]
    exact Search.pairwise_runs ..

/-- In order, and under a head that is not flat, arguments are presented in one way at most. -/
theorem pairwise_presentations (ordered : s.attributes.orderless = false)
    (flat : s.attributes.flat = false) (p : Pattern) (chosen : List Term) (R : Term → Term → Prop) :
    (s.presentations p chosen).values.Pairwise R := by
  by_cases alone : chosen.length = 1
  · obtain ⟨t, rfl⟩ := List.length_eq_one_iff.mp alone
    exact List.pairwise_singleton ..
  · rw [presentations_of_length_ne_one _ _ alone]
    simp only [flattens, ordered, flat, Bool.false_and, Bool.false_eq_true, if_false,
      Search.values_append, Search.values_done, List.append_nil]
    split
    · exact List.pairwise_singleton ..
    · exact .nil

theorem eq_of_mem_presentations (ordered : s.attributes.orderless = false)
    (flat : s.attributes.flat = false) {p : Pattern} {chosen : List Term} {t : Term}
    (h : t ∈ (s.presentations p chosen).values) : t = .ofRun chosen := by
  rcases perm_of_mem_presentations h with ⟨run, order, rfl⟩ | ⟨flattens, -⟩
  · rw [ordered] at order
    obtain rfl : run = chosen := order
    rfl
  · simp [Siblings.flattens, flat] at flattens

theorem plain_of_mem_splits {p : Pattern} {first last : Bool} {items : List Term} {b : Bindings}
    {split : Split Term} (h : split ∈ (s.splits p first last items b).values)
    (plain : ∀ t ∈ items, t.isPlain = true) :
    (∀ t ∈ split.chosen, t.isPlain = true) ∧ ∀ t ∈ split.after, t.isPlain = true := by
  have perm := (rearranged_of_mem_splits h).1.perm
  exact ⟨fun t member => plain t (perm.subset (by simp [member])),
    fun t member => plain t (perm.subset (by simp [member]))⟩

/-- The matches of one element for one choice, and of the later elements after it. -/
def afterSplit (s : Siblings) (e : Element Matcher) (later : List (Element Matcher)) (b : Bindings)
    (split : Split Term) : Search Match :=
  (s.presentations e.pattern split.chosen).bind fun t =>
    (e.matcher ⟨some ⟨s.head, e.position, s.count⟩, true⟩ t b).bind fun m =>
      (s.distribute false later split.after m.bindings).map fun rest =>
        { rest with left := ⟨split.before, rest.left.after⟩ }

section

variable (ordered : s.attributes.orderless = false) (flat : s.attributes.flat = false)
  (whole : s.whole = true)
include ordered flat whole

theorem fits_of_mem_afterSplit {e : Element Matcher} {later : List (Element Matcher)} {b : Bindings}
    {split : Split Term} (sound : ∀ e' ∈ e :: later, e'.pattern.Sound ev e'.matcher) (exact : b.IsExact)
    (plainChosen : ∀ t ∈ split.chosen, t.isPlain = true)
    (plainAfter : ∀ t ∈ split.after, t.isPlain = true) {m : Match}
    (h : m ∈ (s.afterSplit e later b split).values) :
    Fits (testHolds ev) m.bindings.get? e.pattern split.chosen := by
  simp only [afterSplit, Search.values_bind, Search.values_map, List.mem_flatMap, List.mem_map] at h
  obtain ⟨t, presented, now, matched, rest, found, rfl⟩ := h
  obtain rfl := eq_of_mem_presentations ordered flat presented
  obtain ⟨grows, fits⟩ := sound e (by simp) _ _ _ _ plainChosen exact matched
  obtain ⟨growsLater, _⟩ := sound_distribute flat whole (fun e' member => sound e' (by simp [member]))
    plainAfter (grows.exact exact) found
  exact fits.mono growsLater.kept

theorem distinct_distribute (sound : ∀ e ∈ elements, e.pattern.Sound ev e.matcher)
    (distinct : ∀ e ∈ elements, Distinct e.matcher) (telling : ∀ e ∈ elements, e.pattern.Telling)
    {first : Bool} {items : List Term} {b : Bindings} (plain : ∀ t ∈ items, t.isPlain = true)
    (exact : b.IsExact) : (s.distribute first elements items b).values.Pairwise Match.Conflicts := by
  induction elements generalizing first items b with
  | nil =>
    rw [distribute, Search.values_ite]
    split
    · exact .nil
    · exact List.pairwise_singleton ..
  | cons e later ih =>
    have soundLater (e' : Element Matcher) (member : e' ∈ later) := sound e' (List.mem_cons_of_mem e member)
    change ((s.splits e.pattern first later.isEmpty items b).bind (s.afterSplit e later b)).values.Pairwise _
    rw [Search.values_bind, List.pairwise_flatMap]
    constructor
    · intro split inSplits
      obtain ⟨plainChosen, plainAfter⟩ := plain_of_mem_splits inSplits plain
      simp only [afterSplit, Search.values_bind, Search.values_map, List.pairwise_flatMap]
      constructor
      · intro t presented
        obtain rfl := eq_of_mem_presentations ordered flat presented
        have exactNow {c : Context} {m : Match}
            (matched : m ∈ (e.matcher c (.ofRun split.chosen) b).values) : m.bindings.IsExact :=
          (sound e (by simp) _ _ b m plainChosen exact matched).1.exact exact
        constructor
        · intro m matched
          have distinctLater (e' : Element Matcher) (member : e' ∈ later) :=
            distinct e' (List.mem_cons_of_mem e member)
          have tellingLater (e' : Element Matcher) (member : e' ∈ later) :=
            telling e' (List.mem_cons_of_mem e member)
          rw [List.pairwise_map]
          exact ih soundLater distinctLater tellingLater plainAfter (exactNow matched)
        · refine (distinct e (by simp) _ _ b plainChosen exact).imp_of_mem ?_
          intro m m' matched matched' conflict n found n' found'
          obtain ⟨rest, later, rfl⟩ := List.mem_map.mp found
          obtain ⟨rest', later', rfl⟩ := List.mem_map.mp found'
          -- The two already differ after this element, and the later ones only add to the bindings.
          have kept : m.bindings.Agrees rest.bindings.get? :=
            (sound_distribute flat whole soundLater plainAfter (exactNow matched) later).1.kept
          have kept' : m'.bindings.Agrees rest'.bindings.get? :=
            (sound_distribute flat whole soundLater plainAfter (exactNow matched') later').1.kept
          exact conflict.mono kept kept'
      · exact pairwise_presentations ordered flat ..
    · refine (pairwise_splits ordered whole ..).imp_of_mem fun {split split'} inSplits inSplits' differ => ?_
      obtain ⟨plainChosen, plainAfter⟩ := plain_of_mem_splits inSplits plain
      obtain ⟨plainChosen', plainAfter'⟩ := plain_of_mem_splits inSplits' plain
      intro m found m' found'
      have fits := fits_of_mem_afterSplit ordered flat whole sound exact plainChosen plainAfter found
      have fits' := fits_of_mem_afterSplit ordered flat whole sound exact plainChosen' plainAfter' found'
      exact telling e (by simp) _ _ _ _ _ plainChosen plainChosen' fits fits' differ

end

end Siblings

namespace Schema

open Pattern

variable {ev : Evaluator}

theorem telling_toPattern (s : Schema) : s.toPattern.Telling := by
  intro test σ τ run run' plain plain' fits fits' differ
  cases s with
  | atom t isAtom =>
    obtain rfl : run = [t] := fits
    obtain rfl : run' = [t] := fits'
    exact absurd rfl differ
  | wildcard w =>
    refine ⟨w.name, _, _, fits.1, fits'.1, fun eq => differ ?_⟩
    exact congrArg List.length (Term.ofRun_injective plain plain' eq)
  | app head args =>
    obtain ⟨h, args, rfl, -⟩ := fits
    obtain ⟨h', args', rfl, -⟩ := fits'
    exact absurd rfl differ

theorem distinct_compound {head : Pattern} {elements : List Pattern}
    (simple : (Pattern.compound head elements).Simple ev) (headDistinct : Distinct (search ev head))
    (distinct : ∀ p ∈ elements, Distinct (search ev p)) (telling : ∀ p ∈ elements, p.Telling) :
    Distinct (search ev (.compound head elements)) := by
  intro c run b plain exact
  cases simple with | compound attributes notSequence headSimple simple =>
  by_cases isApp : ∃ h args, run = [.app h args]
  · obtain ⟨h, args, rfl⟩ := isApp
    obtain ⟨-, plainHead, plainArgs⟩ := Term.isPlain_app.mp (plain _ List.mem_cons_self)
    have plainRun (t : Term) (member : t ∈ [h]) : t.isPlain = true := List.mem_singleton.mp member ▸ plainHead
    rw [Term.ofRun_singleton, values_compound (by rw [attributes]) (by rw [attributes]) c
      (plain _ List.mem_cons_self)]
    split
    · rw [List.pairwise_flatMap]
      have exactNow {m : Match} (found : m ∈ (search ev head {} h b).values) : m.bindings.IsExact :=
        (headSimple.sound {} [h] b m plainRun exact found).1.exact exact
      constructor
      · intro m found
        have facts {e : Element Matcher} {orderless : Bool}
            (member : e ∈ Element.inOrder orderless (elementsFrom ev 1 elements)) :
            e.pattern.Sound ev e.matcher ∧ Distinct e.matcher ∧ e.pattern.Telling := by
          obtain ⟨inElements, eq⟩ := Siblings.mem_inOrder_elementsFrom member
          rw [eq]
          exact ⟨(simple _ inElements).sound, distinct _ inElements, telling _ inElements⟩
        refine Siblings.distinct_distribute (by simp [attributes]) (by simp [attributes]) rfl
          (fun e member => (facts member).1) (fun e member => (facts member).2.1)
          (fun e member => (facts member).2.2) plainArgs (exactNow found)
      · refine (headDistinct {} [h] b plainRun exact).imp_of_mem ?_
        intro m m' found found' conflict n later n' later'
        have kept {m n : Match} (found : m ∈ (search ev head {} h b).values)
            (later : n ∈ (Siblings.matchAll ⟨h, args, head.attributes ev, elements.length, true⟩
              (elementsFrom ev 1 elements) m.bindings).values) : m.bindings.Agrees n.bindings.get? :=
          (Siblings.sound_matchAll (by simp [attributes]) rfl (fun p member => (simple p member).sound)
            plainArgs (exactNow found) later).1.kept
        exact conflict.mono (kept found later) (kept found' later')
    · exact .nil
  · rw [List.eq_nil_iff_forall_not_mem.mpr fun m found =>
      isApp (app_of_mem_compound notSequence (by rw [attributes]) found)]
    exact .nil

/-- No match of a schema is found twice. -/
theorem distinct_toPattern (bare : ∀ name, ev.attributes name = {}) {s : Schema}
    (plain : s.toTerm.isPlain = true) : Distinct (search ev s.toPattern) := by
  induction s using Schema.induct with
  | atom t isAtom =>
    intro c run b _ _
    rw [toPattern, search, Search.values_ite]
    split
    · exact List.pairwise_singleton ..
    · exact .nil
  | wildcard w =>
    intro c run b plain _
    have atMostOne (b : Bindings) :
        (search ev (.wildcard w.span w.head) c (.ofRun run) b).values.Pairwise Match.Conflicts := by
      rw [values_wildcard _ _ _ plain]
      split
      · exact List.pairwise_singleton ..
      · exact .nil
    rw [toPattern, values_named rfl]
    cases b.get? w.name with
    | none => exact atMostOne _
    | some bound =>
      dsimp only
      split
      · exact atMostOne b
      · exact .nil
  | app head args head_ih ih =>
    obtain ⟨-, plainHead, plainArgs⟩ := Term.isPlain_app.mp plain
    refine distinct_compound (simple_toPattern bare plain) (head_ih plainHead) (fun p member => ?_)
      fun p member => ?_
    · obtain ⟨s, inArgs, rfl⟩ := mem_toPatterns.mp member
      exact ih s inArgs (plainArgs _ (mem_toTerms.mpr ⟨s, inArgs, rfl⟩))
    · obtain ⟨s, inArgs, rfl⟩ := mem_toPatterns.mp member
      exact s.telling_toPattern

end Schema

end TermRewriting
