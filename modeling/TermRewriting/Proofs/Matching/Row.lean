import TermRewriting.Proofs.Matching.Distribution
import TermRewriting.Proofs.Matching.Explicit

/-! Matching a row of arguments. If the elements find nothing unsound and miss nothing, then so does
the distribution of the arguments among them, in order or without order, as long as the head is not
flat. -/

namespace TermRewriting

namespace Pattern

variable {ev : Evaluator}

/-- Every match of a plain run extends the bindings so that the run fits. -/
def Sound (ev : Evaluator) (p : Pattern) (matcher : Matcher) : Prop :=
  ∀ c run b m, (∀ t ∈ run, t.isPlain = true) → b.IsExact → m ∈ (matcher c (.ofRun run) b).values →
    b.Grows p.names m.bindings ∧ Fits (testHolds ev) m.bindings.get? p run

/-- Where a plain run fits, some match agrees with the assignment. -/
def Complete (ev : Evaluator) (p : Pattern) (matcher : Matcher) : Prop :=
  ∀ c run b σ, (∀ t ∈ run, t.isPlain = true) → b.Agrees σ → Fits (testHolds ev) σ p run →
    ∃ m ∈ (matcher c (.ofRun run) b).values, m.bindings.Agrees σ

theorem mem_namesOfAll {ps : List Pattern} {x : String} :
    x ∈ namesOfAll ps ↔ ∃ p ∈ ps, x ∈ p.names := by
  induction ps with
  | nil => simp [namesOfAll]
  | cons p ps ih => simp [namesOfAll, ih]

theorem namesOfAll_subset {ps qs : List Pattern} (sub : ps ⊆ qs) : namesOfAll ps ⊆ namesOfAll qs := by
  intro x member
  obtain ⟨p, inList, named⟩ := mem_namesOfAll.mp member
  exact mem_namesOfAll.mpr ⟨p, sub inList, named⟩

theorem FitsRow.rearranged {test : Term → Term → Bool} {σ : Assignment} {free : Bool}
    {ps qs : List Pattern} (order : Rearranged free ps qs) {row : List Term}
    (h : FitsRow test σ ps row) : ∃ row', Rearranged free row' row ∧ FitsRow test σ qs row' := by
  cases free with
  | false =>
    obtain rfl : ps = qs := order
    exact ⟨row, .refl .., h⟩
  | true => exact h.perm order

theorem Fits.boundTo? {test : Term → Term → Bool} {σ : Assignment} {p : Pattern} {run : List Term}
    {b : Bindings} (h : Fits test σ p run) (agrees : b.Agrees σ) (v : Term)
    (bound : Siblings.boundTo? b p = some v) : v = .ofRun run := by
  cases p with
  | named name inner => exact Option.some.inj ((agrees name v bound).symm.trans h.1)
  | _ => cases bound

theorem map_pattern_elementsFrom (ps : List Pattern) (position : Nat) :
    (elementsFrom ev position ps).map (·.pattern) = ps := by
  induction ps generalizing position with
  | nil => rfl
  | cons p ps ih => simp [elementsFrom, ih]

theorem length_elementsFrom (ps : List Pattern) (position : Nat) :
    (elementsFrom ev position ps).length = ps.length := by
  rw [← List.length_map (·.pattern), map_pattern_elementsFrom]

/-- An application of the symbol in the head is matched by its arguments; it never stands for one of
them. -/
theorem search_call (ev : Evaluator) (h : String) (ps : List Pattern) (c : Context) (args : List Term)
    (b : Bindings) :
    search ev (.compound (.literal (.symbol h)) ps) c (.call h args) b =
      if (ev.attributes h).flat || (totalWidth ps).admits args.length then
        Siblings.matchAll ⟨.symbol h, args, ev.attributes h, ps.length, c.whole || !(ev.attributes h).flat⟩
          (elementsFrom ev 1 ps) b
      else .done := by
  have attributes : (literal (.symbol h)).attributes ev = ev.attributes h := rfl
  have apart : ((Term.call h args).isSequence && (literal (.symbol h)).symbol? != some "Sequence") = false := by
    by_cases eq : h = "Sequence" <;>
      simp [eq, Term.call, Term.isSequence, Term.isCall, Term.isSymbol, Term.symbol?, symbol?, literal?]
  have same : (Term.symbol h).same (.symbol h) = true := Term.same_self rfl
  have lone : matchLone (literal (.symbol h)).literal? (elementsFrom ev 1 ps) (.call h args) b = .done := by
    simp [literal?, matchLone, standsAlone, Term.isHeadedBy_call]
  rw [search, matchCompound, apart, attributes, lone]
  simp only [Bool.false_eq_true, if_false, ite_self, Search.append_done]
  rw [Term.call, matchApplication, map_pattern_elementsFrom, search, if_pos same, Search.one_bind,
    length_elementsFrom]

end Pattern

theorem Element.rank_le (p : Pattern) : p.rank ≤ 3 := by
  unfold Pattern.rank
  split
  · omega
  split
  · omega
  split
  · omega
  · split <;> omega

/-- Matching by rank goes through the same elements in another order. -/
theorem Element.rearranged_inOrder {μ : Type} (orderless : Bool) (elements : List (Element μ)) :
    Rearranged orderless (inOrder orderless elements) elements := by
  cases orderless with
  | false => exact Eq.refl elements
  | true =>
    change (byRank elements).Perm elements
    simp only [byRank, List.flatMap_cons, List.flatMap_nil, List.append_nil]
    induction elements with
    | nil => exact .refl _
    | cons e elements ih =>
      have rank := rank_le e.pattern
      have ranks : e.pattern.rank = 0 ∨ e.pattern.rank = 1 ∨ e.pattern.rank = 2 ∨ e.pattern.rank = 3 := by
        omega
      refine List.Perm.trans ?_ (ih.cons e)
      rcases ranks with eq | eq | eq | eq
      · simp [eq]
      · simp [eq]
      · simp only [List.filter_cons, eq, Nat.reduceBEq, Bool.false_eq_true, if_false, if_true,
          List.cons_append]
        exact (List.perm_middle.append_left _).trans List.perm_middle
      · simp [eq, ← List.append_assoc]

namespace Siblings

open Pattern

variable {ev : Evaluator} {s : Siblings} {elements : List (Element Matcher)}

theorem sound_distribute (flat : s.attributes.flat = false) (whole : s.whole = true)
    (sound : ∀ e ∈ elements, e.pattern.Sound ev e.matcher) {first : Bool} {items : List Term}
    {b : Bindings} {m : Match} (plain : ∀ t ∈ items, t.isPlain = true) (exact : b.IsExact)
    (h : m ∈ (s.distribute first elements items b).values) :
    b.Grows (namesOfAll (elements.map (·.pattern))) m.bindings ∧
      ∃ row, Rearranged s.attributes.orderless row items ∧
        FitsRow (testHolds ev) m.bindings.get? (elements.map (·.pattern)) row := by
  induction elements generalizing first items b m with
  | nil =>
    obtain ⟨none, rfl⟩ := mem_distribute_nil.mp h
    obtain rfl := none whole
    exact ⟨.refl .., [], .refl .., rfl⟩
  | cons e later ih =>
    obtain ⟨split, inSplits, t, presented, m, matched, rest, found, rfl⟩ := mem_distribute_cons.mp h
    have order := (rearranged_of_mem_splits inSplits).1
    rw [before_of_mem_splits inSplits (by simp [whole]), List.nil_append] at order
    rcases perm_of_mem_presentations presented with ⟨run, runOrder, rfl⟩ | ⟨flattens, -⟩
    · have inItems {t : Term} (member : t ∈ split.chosen ++ split.after) : t.isPlain = true :=
        plain t (order.perm.subset member)
      have plainRun (t : Term) (member : t ∈ run) : t.isPlain = true :=
        inItems (List.mem_append_left _ (runOrder.perm.subset member))
      have plainAfter (t : Term) (member : t ∈ split.after) : t.isPlain = true :=
        inItems (List.mem_append_right _ member)
      obtain ⟨grows, fits⟩ := sound e (by simp) _ run b m plainRun exact matched
      obtain ⟨growsLater, row, rowOrder, fitsRow⟩ :=
        ih (fun e member => sound e (by simp [member])) plainAfter (grows.exact exact) found
      exact ⟨grows.trans growsLater, run ++ row, (runOrder.append rowOrder).trans order, run, row, rfl,
        fits.mono growsLater.kept, fitsRow⟩
    · simp [Siblings.flattens, flat] at flattens

theorem complete_distribute (flat : s.attributes.flat = false)
    (simple : ∀ e ∈ elements, e.pattern.Simple ev)
    (complete : ∀ e ∈ elements, e.pattern.Complete ev e.matcher) {first : Bool}
    {items row : List Term} {b : Bindings} {σ : Assignment} (plain : ∀ t ∈ items, t.isPlain = true)
    (agrees : b.Agrees σ) (order : Rearranged s.attributes.orderless row items)
    (fits : FitsRow (testHolds ev) σ (elements.map (·.pattern)) row) :
    ∃ m ∈ (s.distribute first elements items b).values, m.bindings.Agrees σ := by
  induction elements generalizing first items row b with
  | nil =>
    obtain rfl : row = [] := fits
    obtain rfl := order.perm.nil_eq
    exact ⟨⟨b, {}⟩, by simp [distribute], agrees⟩
  | cons e later ih =>
    obtain ⟨run, others, rfl, fitsRun, fitsRow⟩ := fits
    obtain ⟨split, inSplits, runOrder, laterOrder⟩ :=
      mem_splits first later.isEmpty flat order
        ((simple e (by simp)).mayMatch fitsRun) fitsRun.admits (fitsRun.boundTo? agrees) plain
    have inItems {t : Term} (member : t ∈ run ++ others) : t.isPlain = true :=
      plain t (order.perm.subset member)
    have plainRun (t : Term) (member : t ∈ run) : t.isPlain = true :=
      inItems (List.mem_append_left _ member)
    have plainAfter (t : Term) (member : t ∈ split.after) : t.isPlain = true :=
      inItems (List.mem_append_right _ (laterOrder.perm.mem_iff.mpr member))
    obtain ⟨m, matched, agreesNow⟩ :=
      complete e (by simp) ⟨some ⟨s.head, e.position, s.count⟩, true⟩ run b σ plainRun agrees fitsRun
    obtain ⟨rest, found, agreesLater⟩ :
        ∃ rest ∈ (s.distribute false later split.after m.bindings).values, rest.bindings.Agrees σ :=
      ih (fun e member => simple e (by simp [member])) (fun e member => complete e (by simp [member]))
        plainAfter agreesNow laterOrder fitsRow
    refine ⟨{ rest with left := ⟨split.before, rest.left.after⟩ }, ?_, agreesLater⟩
    exact mem_distribute_cons.mpr ⟨split, inSplits, .ofRun run, mem_presentations runOrder fitsRun.admits,
      m, matched, rest, found, rfl⟩

theorem mem_inOrder_elementsFrom {ps : List Pattern} {orderless : Bool} {e : Element Matcher}
    (h : e ∈ Element.inOrder orderless (elementsFrom ev 1 ps)) :
    e.pattern ∈ ps ∧ e.matcher = search ev e.pattern := mem_elementsFrom (Element.mem_inOrder h)

theorem rearranged_map_pattern (ev : Evaluator) (orderless : Bool) (ps : List Pattern) :
    Rearranged orderless ((Element.inOrder orderless (elementsFrom ev 1 ps)).map (·.pattern)) ps := by
  have order := (Element.rearranged_inOrder orderless (elementsFrom ev 1 ps)).map (·.pattern)
  rwa [map_pattern_elementsFrom] at order

theorem sound_matchAll (flat : s.attributes.flat = false) (whole : s.whole = true) {ps : List Pattern}
    (sound : ∀ p ∈ ps, p.Sound ev (search ev p)) {b : Bindings} {m : Match}
    (plain : ∀ t ∈ s.args, t.isPlain = true) (exact : b.IsExact)
    (h : m ∈ (s.matchAll (elementsFrom ev 1 ps) b).values) :
    b.Grows (namesOfAll ps) m.bindings ∧ ∃ row, Rearranged s.attributes.orderless row s.args ∧
      FitsRow (testHolds ev) m.bindings.get? ps row := by
  have each (e : Element Matcher)
      (member : e ∈ Element.inOrder s.attributes.orderless (elementsFrom ev 1 ps)) :
      e.pattern.Sound ev e.matcher := by
    obtain ⟨inElements, eq⟩ := mem_inOrder_elementsFrom member
    exact eq ▸ sound _ inElements
  have order := rearranged_map_pattern ev s.attributes.orderless ps
  obtain ⟨grows, row, rowOrder, fits⟩ := sound_distribute (by exact flat) (by simp [whole]) each plain exact h
  obtain ⟨row', rowOrder', fits'⟩ := fits.rearranged order
  exact ⟨grows.mono (namesOfAll_subset order.perm.subset), row', rowOrder'.trans rowOrder, fits'⟩

theorem complete_matchAll (flat : s.attributes.flat = false) {ps : List Pattern}
    (simple : ∀ p ∈ ps, p.Simple ev) (complete : ∀ p ∈ ps, p.Complete ev (search ev p))
    {row : List Term} {b : Bindings} {σ : Assignment} (plain : ∀ t ∈ s.args, t.isPlain = true)
    (agrees : b.Agrees σ) (order : Rearranged s.attributes.orderless row s.args)
    (fits : FitsRow (testHolds ev) σ ps row) :
    ∃ m ∈ (s.matchAll (elementsFrom ev 1 ps) b).values, m.bindings.Agrees σ := by
  obtain ⟨row', rowOrder, fits'⟩ :=
    fits.rearranged (rearranged_map_pattern ev s.attributes.orderless ps).symm
  refine complete_distribute (by exact flat) (fun e member => ?_) (fun e member => ?_) plain agrees
    (rowOrder.trans order) fits'
  · exact simple _ (mem_inOrder_elementsFrom member).1
  · obtain ⟨inElements, eq⟩ := mem_inOrder_elementsFrom member
    exact eq ▸ complete _ inElements

end Siblings

end TermRewriting
