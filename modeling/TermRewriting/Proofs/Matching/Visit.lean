import TermRewriting.Pattern.Visit
import TermRewriting.Proofs.Search.All
import TermRewriting.Proofs.Search.Choice

/-! Visiting the matches of a pattern is unfolding the search for them. The search tells arguments
apart by what they are and the visit by where they stand; the two agree on what a match in part
leaves alone, since a whole match leaves nothing. -/

namespace TermRewriting

variable {κ : Type}

/-- The two are handed the same match of the term, given with positions and given with terms. -/
def Agree (whole : Bool) (t : Term) (k : MatchVisitor κ) (k' : Match → Visit κ) : Prop :=
  ∀ b r, (whole = true → r = {}) → k b r = k' ⟨b, r.leftover t⟩

theorem Agree.nothing_left {whole : Bool} {t : Term} {k : MatchVisitor κ} {k' : Match → Visit κ}
    (agree : Agree whole t k k') (b : Bindings) : k b {} = k' ⟨b, {}⟩ := agree b {} fun _ => rfl

theorem agree_bindings (whole : Bool) (t : Term) (k : Bindings → Visit κ) :
    Agree whole t (fun b _ => k b) fun m => k m.bindings := fun _ _ _ => rfl

structure SameElement (e : Element Matcher) (v : Element (VisitMatches κ)) : Prop where
  pattern : v.pattern = e.pattern
  position : v.position = e.position
  visit : ∀ c t b (k : Bindings → Visit κ),
    v.matcher c t b (fun b _ => k b) = (e.matcher c t b).visit fun m => k m.bindings

theorem Element.forall₂_inOrder {μ ν : Type} {T : Element μ → Element ν → Prop} {orderless : Bool}
    (rank : orderless = true → ∀ e e', T e e' → e.pattern.rank = e'.pattern.rank)
    {elements : List (Element μ)} {elements' : List (Element ν)} (each : List.Forall₂ T elements elements') :
    List.Forall₂ T (inOrder orderless elements) (inOrder orderless elements') := by
  cases orderless with
  | false => exact each
  | true =>
    have ranked (r : Nat) : List.Forall₂ T (elements.filter fun e => e.pattern.rank == r)
        (elements'.filter fun e => e.pattern.rank == r) := by
      refine List.rel_filter (fun e e' related => ?_) each
      simp only [rank rfl e e' related]
    simp only [inOrder, byRank, if_true, List.flatMap_cons, List.flatMap_nil]
    exact List.rel_append (ranked 0) <| List.rel_append (ranked 1) <|
      List.rel_append (ranked 2) <| List.rel_append (ranked 3) .nil

namespace Siblings

theorem pull?_map {α β : Type} (f : α → β) (holds : β → Bool) (xs : List α) :
    pull? holds (xs.map f) =
      (pull? (fun x => holds (f x)) xs).map fun (x, rest) => (f x, rest.map f) := by
  induction xs with
  | nil => rfl
  | cons x xs ih => by_cases h : holds (f x) <;> simp [pull?, h, ih, Function.comp_def]

theorem take?_map {α β : Type} (f : α → β) (does : Term → β → Bool) (wanted : List Term)
    (xs : List α) :
    take? does wanted (xs.map f) = (take? (fun want x => does want (f x)) wanted xs).map (Split.map f) := by
  induction wanted generalizing xs with
  | nil => rfl
  | cons want wanted ih =>
    simp only [take?, pull?_map, Option.bind_map, Option.map_bind]
    congr 1
    funext (x, rest)
    simp [ih, Split.map, Function.comp_def]

theorem pull?_congr {α : Type} {holds holds' : α → Bool} {xs : List α}
    (h : ∀ x ∈ xs, holds x = holds' x) : pull? holds xs = pull? holds' xs := by
  induction xs with
  | nil => rfl
  | cons x xs ih => simp only [pull?, h x (by simp), ih fun y member => h y (by simp [member])]

/-- The item that is pulled is the first with the property, and the others keep their order. -/
theorem pull?_eq_some_iff {α : Type} {holds : α → Bool} {xs rest : List α} {x : α} :
    pull? holds xs = some (x, rest) ↔
      holds x = true ∧ ∃ earlier later, xs = earlier ++ x :: later ∧ rest = earlier ++ later ∧
        ∀ y ∈ earlier, holds y = false := by
  constructor
  · intro h
    induction xs generalizing rest with
    | nil => cases h
    | cons y xs ih =>
      by_cases here : holds y = true
      · rw [pull?, if_pos here] at h
        obtain ⟨rfl, rfl⟩ := Prod.mk.inj (Option.some.inj h)
        exact ⟨here, [], xs, rfl, rfl, by simp⟩
      · rw [pull?, if_neg here] at h
        obtain ⟨⟨z, others⟩, found, eq⟩ := Option.map_eq_some_iff.mp h
        obtain ⟨rfl, rfl⟩ := Prod.mk.inj eq
        obtain ⟨does, earlier, later, rfl, rfl, none⟩ := ih found
        exact ⟨does, y :: earlier, later, rfl, rfl, by simpa [here] using none⟩
  · rintro ⟨does, earlier, later, rfl, rfl, none⟩
    induction earlier with
    | nil => simp [pull?, does]
    | cons y earlier ih =>
      obtain ⟨here, none⟩ := List.forall_mem_cons.mp none
      simp [pull?, here, ih none]

theorem perm_of_pull? {α : Type} {holds : α → Bool} {xs rest : List α} {x : α}
    (h : pull? holds xs = some (x, rest)) : holds x = true ∧ (x :: rest).Perm xs := by
  obtain ⟨does, earlier, later, rfl, rfl, -⟩ := pull?_eq_some_iff.mp h
  exact ⟨does, List.perm_middle.symm⟩

theorem take?_cons_eq_some_iff {α : Type} {does : Term → α → Bool} {want : Term} {wanted : List Term}
    {xs : List α} {split : Split α} :
    take? does (want :: wanted) xs = some split ↔
      ∃ x rest, pull? (does want) xs = some (x, rest) ∧
        ∃ later, take? does wanted rest = some later ∧ { later with chosen := x :: later.chosen } = split := by
  simp only [take?, Option.bind_eq_some_iff, Option.map_eq_some_iff, Prod.exists]

theorem take?_congr {α : Type} {does does' : Term → α → Bool} {wanted : List Term} {xs : List α}
    (h : ∀ want, ∀ x ∈ xs, does want x = does' want x) : take? does wanted xs = take? does' wanted xs := by
  induction wanted generalizing xs with
  | nil => rfl
  | cons want wanted ih =>
    simp only [take?, pull?_congr (h want)]
    cases found : pull? (does' want) xs with
    | none => rfl
    | some pulled =>
      obtain ⟨x, rest⟩ := pulled
      have member {y : α} (inRest : y ∈ rest) : y ∈ xs :=
        (perm_of_pull? found).2.subset (List.mem_cons_of_mem x inRest)
      simp only [Option.bind_some, ih fun want y inRest => h want y (member inRest)]

theorem before_of_take? {α : Type} {does : Term → α → Bool} {wanted : List Term} {xs : List α}
    {split : Split α} (h : take? does wanted xs = some split) : split.before = [] := by
  induction wanted generalizing xs split with
  | nil =>
    obtain rfl := Option.some.inj h
    rfl
  | cons want wanted ih =>
    obtain ⟨_, _, _, later, taken, rfl⟩ := take?_cons_eq_some_iff.mp h
    have before := ih taken
    exact before

def splitsAt (s : Siblings) (p : Pattern) (first last : Bool) (candidates : List Nat)
    (b : Bindings) : Search (Split Nat) :=
  let included := candidates.filter fun position => s.fits p (s.arg position)
  if included.length < p.width.least then .done
  else if !s.attributes.orderless then
    Search.runs candidates p.width.least (s.most p) (first && !s.whole) (!last)
  else match boundTo? b p with
    | some value =>
      .ofOption (take? (fun want position => (s.arg position).same want && s.fits p (s.arg position))
        (s.needed value) candidates)
    | none =>
      Search.subsets (fun position => s.fits p (s.arg position)) candidates p.width.least (s.most p)
        (!last)

theorem splits_map_arg (s : Siblings) (p : Pattern) (first last : Bool) (candidates : List Nat)
    (b : Bindings) :
    s.splits p first last (candidates.map s.arg) b =
      (s.splitsAt p first last candidates b).map (Split.map s.arg) := by
  have count : ((candidates.map s.arg).filter (s.fits p)).length =
      (candidates.filter fun position => s.fits p (s.arg position)).length := by
    simp [List.filter_map, Function.comp_def]
  unfold splits splitsAt
  simp only [count]
  split
  · rfl
  split
  · exact Search.runs_map ..
  cases boundTo? b p with
  | none => exact Search.subsets_map ..
  | some value =>
    simp only [take?_map]
    cases take? _ _ candidates <;> simp [Search.ofOption, Search.map_eq_bind, Search.one_bind, Search.bind]

theorem visitChoices_eq (s : Siblings) (p : Pattern) (first last : Bool) (candidates : List Nat)
    (b : Bindings) (k : (chosen before after : List Nat) → Visit κ) :
    s.visitChoices p first last candidates b k =
      (s.splitsAt p first last candidates b).visit fun split =>
        k split.chosen split.before split.after := by
  have included (position : Nat) (member : position ∈ candidates) :
      (candidates.filter fun position => s.fits p (s.arg position)).contains position =
        s.fits p (s.arg position) := by
    rw [Bool.eq_iff_iff]
    simp [member]
  unfold visitChoices splitsAt
  dsimp only
  split
  · rfl
  split
  · rw [Search.visit_runs]
  cases boundTo? b p with
  | none =>
    simp only [Search.visit_subsets, Search.subsets_congr included]
    exact Search.visit_congr
      ((Search.all_subsets_before ..).imp fun split before => by simp only [before])
  | some value =>
    have same (want : Term) (position : Nat) (member : position ∈ candidates) :
        ((s.arg position).same want &&
          (candidates.filter fun position => s.fits p (s.arg position)).contains position) =
        ((s.arg position).same want && s.fits p (s.arg position)) := by
      rw [included position member]
    simp only [take?_congr same, Search.visit_ofOption]
    cases taken : take? _ _ candidates with
    | none => rfl
    | some split => simp only [before_of_take? taken]

/-- Only where arguments may be left over is anything left out before a choice. -/
theorem all_splitsAt_before (s : Siblings) (p : Pattern) (first last : Bool)
    (candidates : List Nat) (b : Bindings) :
    Search.All (fun split => s.whole = true → split.before = [])
      (s.splitsAt p first last candidates b) := by
  by_cases whole : s.whole
  · simp only [whole, forall_const]
    unfold splitsAt
    dsimp only
    split
    · exact Search.all_done
    split
    · rw [whole, Bool.not_true, Bool.and_false]
      exact Search.all_runs_before ..
    cases boundTo? b p with
    | none => exact Search.all_subsets_before ..
    | some value => exact Search.all_ofOption.mpr fun _ taken => before_of_take? taken
  · exact Search.all_of_forall _ fun _ isWhole => absurd isWhole whole

theorem presentations_of_length_ne_one (s : Siblings) (p : Pattern) {chosen : List Term}
    (h : chosen.length ≠ 1) :
    s.presentations p chosen =
      (if p.width.most.all (chosen.length ≤ ·) then
          (if s.attributes.orderless then Search.permutations chosen else .one chosen).map .sequence
        else .done).append fun _ =>
      if s.flattens p && !chosen.isEmpty && chosen.length < s.args.length then
        .one (.app s.head chosen)
      else .done := by
  match chosen with
  | [_] => exact absurd rfl h
  | [] | _ :: _ :: _ => rfl

theorem visitPresentations_eq (s : Siblings) (p : Pattern) (chosen : List Nat) (k : Term → Visit κ) :
    s.visitPresentations p chosen k = (s.presentations p (chosen.map s.arg)).visit k := by
  match chosen with
  | [position] => simp [visitPresentations, presentations]
  | [] | _ :: _ :: _ =>
    rw [presentations_of_length_ne_one _ _ (by simp), visitPresentations.eq_2 _ _ _ _ (by simp)]
    simp only [List.length_map, List.isEmpty_map, Search.visit_append, Search.visit_ite,
      Search.visit_map, Search.visit_one, Search.visit_done, Search.permutations_map,
      Search.visit_permutations]

theorem leftover_app (s : Siblings) (r : Rest) :
    r.leftover (.app s.head s.args) = ⟨r.before.map s.arg, r.after.map s.arg⟩ := rfl

theorem map_arg_range (s : Siblings) : (List.range s.args.length).map s.arg = s.args := by
  apply List.ext_getElem
  · simp
  · intro i h _
    have bound : i < s.args.length := by simpa using h
    simp [arg, bound]

theorem visitElement_eq (s : Siblings) {e : Element Matcher} {v : Element (VisitMatches κ)}
    {later : List (Element Matcher)} {visitors : List (Element (VisitMatches κ))}
    (same : SameElement e v) (laterSame : List.Forall₂ SameElement later visitors) (first : Bool)
    (candidates : List Nat) (b : Bindings) {k : MatchVisitor κ} {k' : Match → Visit κ}
    (agree : Agree s.whole (.app s.head s.args) k k') :
    s.visitElement first v visitors candidates b k =
      (s.distribute first (e :: later) (candidates.map s.arg) b).visit k' := by
  induction laterSame generalizing first e v candidates b k k' with
  | nil =>
    rw [visitElement, distribute]
    simp only [visitChoices_eq, visitPresentations_eq, same.pattern, same.position, same.visit,
      splits_map_arg, Search.visit_bind, Search.visit_map, List.isEmpty_nil]
    refine Search.visit_congr ((all_splitsAt_before ..).imp fun split before => ?_)
    congr; funext t; congr; funext m
    have last := agree m.bindings ⟨split.before, split.after⟩
    by_cases whole : s.whole
    · cases left : split.after with
      | nil =>
        have now := last fun _ => by rw [before whole, left]
        simpa [distribute, Split.map, whole, before whole, left, leftover_app] using now
      | cons => simp [distribute, Split.map, whole, left]
    · have now := last fun isWhole => absurd isWhole whole
      simpa [distribute, Split.map, whole, leftover_app] using now
  | cons nextSame laterSame ih =>
    rw [visitElement, distribute]
    simp only [visitChoices_eq, visitPresentations_eq, same.pattern, same.position, same.visit,
      splits_map_arg, Search.visit_bind, Search.visit_map]
    refine Search.visit_congr ((all_splitsAt_before ..).imp fun split before => ?_)
    congr; funext t; congr; funext m
    refine ih nextSame false split.after m.bindings fun b r nothing => ?_
    exact agree b ⟨split.before, r.after⟩ fun whole => by rw [before whole, nothing whole]

theorem visitAll_eq (s : Siblings) {elements : List (Element Matcher)}
    {visitors : List (Element (VisitMatches κ))}
    (same : List.Forall₂ SameElement elements visitors) (b : Bindings) {k : MatchVisitor κ}
    {k' : Match → Visit κ} (agree : Agree s.whole (.app s.head s.args) k k') :
    s.visitAll visitors b k = (s.matchAll elements b).visit k' := by
  have inOrder := Element.forall₂_inOrder
    (fun (_ : s.attributes.orderless = true) _ _ same => congrArg Pattern.rank same.pattern.symm) same
  unfold visitAll matchAll
  revert inOrder
  generalize Element.inOrder _ elements = elements
  generalize Element.inOrder _ visitors = visitors
  intro inOrder
  cases inOrder with
  | nil =>
    cases args : s.args with
    | nil => simpa [distribute, args] using agree.nothing_left b
    | cons => simp [distribute]
  | cons firstSame laterSame =>
    have := visitElement_eq s firstSame laterSame true (List.range s.args.length) b agree
    simpa [map_arg_range] using this

end Siblings

namespace Pattern

theorem visitDefault_eq (ev : Evaluator) (inline : Option Term) (place : Option Place)
    (k : Term → Visit κ) :
    visitDefault ev inline place k = (defaultValue ev inline place).visit k := by
  unfold visitDefault defaultValue
  cases default? ev inline place <;> simp [Search.visit]

theorem visitDefaultOptions_eq (ev : Evaluator) (cell : Position) (explicit : Option Term)
    (place : Option Place) (k : Options → Visit κ) :
    visitDefaultOptions ev cell explicit place k =
      (defaultOptions ev cell explicit place).visit k := by
  cases explicit <;> simp [visitDefaultOptions, defaultOptions, Search.visit]

theorem visitValue_eq (ev : Evaluator) (inner : Pattern) (place : Option Place) (t : Term)
    (k : Term → Visit κ) :
    visitValue ev inner place t k = (valueOf ev inner place t).visit k := by
  unfold visitValue valueOf
  cases inner.optionalDefault? with
  | none => simp
  | some inline => simp only [Search.visit_ite, visitDefault_eq, Search.visit_one]

section

variable {headMatcher : Matcher} {visitHead : VisitMatches κ} {elements : List (Element Matcher)}
  {visitors : List (Element (VisitMatches κ))}

theorem map_pattern_eq (same : List.Forall₂ SameElement elements visitors) :
    visitors.map (·.pattern) = elements.map (·.pattern) := by
  induction same with
  | nil => rfl
  | cons first _ ih => simp [first.pattern, ih]

theorem visitApplication_eq
    (head : ∀ c t b (k : Bindings → Visit κ),
      visitHead c t b (fun b _ => k b) = (headMatcher c t b).visit fun m => k m.bindings)
    (same : List.Forall₂ SameElement elements visitors) (attributes : Attributes) (whole : Bool)
    (t : Term) (b : Bindings) {k : MatchVisitor κ} {k' : Match → Visit κ} (agree : Agree whole t k k') :
    visitApplication visitHead visitors attributes whole t b k =
      (matchApplication headMatcher elements attributes whole t b).visit k' := by
  cases t with
  | app h args =>
    have agree : Agree (whole || !attributes.flat) (.app h args) k k' :=
      fun b r nothing => agree b r fun isWhole => nothing (by simp [isWhole])
    simp only [visitApplication, matchApplication, map_pattern_eq same, Search.visit_ite,
      Search.visit_bind, Search.visit_done, head, same.length_eq]
    split
    · congr; funext m
      exact Siblings.visitAll_eq _ same _ agree
    · rfl
  | _ => rfl

theorem visitLone_eq (same : List.Forall₂ SameElement elements visitors) (head : Option Term)
    (whole : Bool) (t : Term) (b : Bindings) {k : MatchVisitor κ} {k' : Match → Visit κ}
    (agree : Agree whole t k k') :
    visitLone head visitors t b k = (matchLone head elements t b).visit k' := by
  cases head with
  | none => rfl
  | some h =>
    simp only [visitLone, matchLone, map_pattern_eq same, Search.visit_ite, Search.visit_done,
      Search.visit_map, agree.nothing_left]
    split
    · rfl
    · have count := same.length_eq
      refine Search.visit_thread (same.imp fun e v same b k => ?_) b _
      simp only [same.pattern, same.position, same.visit, count, Search.visit_map]

end

/-- Visiting finds what searching finds, as long as the visitor agrees on what it is handed. -/
def VisitsSearch (κ : Type) (ev : Evaluator) (p : Pattern) : Prop :=
  ∀ c t b (k : MatchVisitor κ) (k' : Match → Visit κ), Agree c.whole t k k' →
    p.visit ev c t b k = (p.search ev c t b).visit k'

theorem VisitsSearch.bindings {ev : Evaluator} {p : Pattern} (h : VisitsSearch κ ev p) (c : Context)
    (t : Term) (b : Bindings) (k : Bindings → Visit κ) :
    (p.visit ev c t b fun b _ => k b) = (p.search ev c t b).visit fun m => k m.bindings :=
  h c t b _ _ (agree_bindings _ _ k)

theorem visitAny_eq {ev : Evaluator} {ps : List Pattern} (each : ∀ p ∈ ps, VisitsSearch κ ev p)
    (c : Context) (t : Term) (b : Bindings) {k : MatchVisitor κ} {k' : Match → Visit κ}
    (agree : Agree c.whole t k k') :
    visitAny ev ps c t b k = (searchAny ev ps c t b).visit k' := by
  induction ps with
  | nil => rfl
  | cons p ps ih =>
    simp only [visitAny, searchAny, Search.visit_append, each p (by simp) c t b k k' agree,
      ih fun q member => each q (by simp [member])]

theorem forall₂_elementsFrom {ev : Evaluator} {ps : List Pattern}
    (each : ∀ p ∈ ps, VisitsSearch κ ev p) (position : Nat) :
    List.Forall₂ SameElement (elementsFrom ev position ps) (visitorsFrom (κ := κ) ev position ps) := by
  induction ps generalizing position with
  | nil => exact .nil
  | cons p ps ih =>
    exact .cons ⟨rfl, rfl, (each p (by simp)).bindings⟩
      (ih (fun q member => each q (by simp [member])) (position + 1))

theorem visit_eq_search (ev : Evaluator) (p : Pattern) : VisitsSearch κ ev p := by
  induction p using Pattern.induct with
  | wildcard span head =>
    intro c t b k k' agree
    cases span <;>
      simp only [visit, search, Search.visit_ite, Search.visit_one, Search.visit_done,
        agree.nothing_left]
  | named name inner ih =>
    intro c t b k k' agree
    simp only [visit, search, visitValue_eq, Search.visit_bind]
    congr; funext value
    cases b.get? name with
    | none => exact ih _ _ _ _ _ agree
    | some bound => simp only [Search.visit_ite, Search.visit_done, ih _ _ _ _ _ agree]
  | optional inner inline ih =>
    intro c t b k k' agree
    -- The inner match is a whole one, so that it does not matter which term it is of.
    have inner (value : Term) := ih {} value b k k' fun b r nothing => by
      rw [nothing rfl]
      exact agree.nothing_left b
    simp only [visit, search, visitDefault_eq, Search.visit_bind, Search.visit_ite, Search.visit_one,
      inner]
  | alternatives choices ih => exact fun c t b k k' agree => visitAny_eq ih c t b agree
  | except excluded fallback probe ih =>
    intro c t b k k' agree
    simp only [visit, search, Search.visit_barring, ih _ _ _ _ _ agree]
    congr 1
    exact probe c t b _ _ fun _ _ _ => rfl
  | verbatim v | literal v =>
    intro c t b k k' agree
    simp only [visit, search, Search.visit_ite, Search.visit_one, Search.visit_done,
      agree.nothing_left]
  | hold inner ih => exact fun c t b k k' agree => ih c t b k k' agree
  | test inner predicate ih =>
    intro c t b k k' agree
    simp only [visit, search, Search.visit_filter]
    refine ih _ t b _ _ fun b r nothing => ?_
    rw [nothing rfl, agree.nothing_left]
    rfl
  | condition inner guard ih =>
    intro c t b k k' agree
    simp only [visit, search, Search.visit_filter]
    refine ih c t b _ _ fun b r nothing => ?_
    rw [agree b r nothing]
  | repeated inner least most ih =>
    intro c t b k k' agree
    simp only [visit, search, Search.visit_ite, Search.visit_map, Search.visit_done,
      agree.nothing_left]
    congr 1
    refine Search.visit_thread (List.forall₂_same.mpr fun item _ b k => ?_) b _
    simp only [ih.bindings, Search.visit_map]
  | options cell explicit =>
    intro c t b k k' agree
    simp only [visit, search, visitDefaultOptions_eq, Search.visit_bind]
    congr; funext options
    cases Options.passAll? options t.items <;> simp [agree.nothing_left]
  | compound head elements head_ih ih =>
    intro c t b k k' agree
    have same := forall₂_elementsFrom ih 1
    simp only [visit, search, visitCompound, matchCompound, Search.visit_ite, Search.visit_append,
      Search.visit_done, visitApplication_eq head_ih.bindings same _ _ _ _ agree,
      visitLone_eq same _ _ _ _ agree]

theorem matchWith_eq (ev : Evaluator) (p : Pattern) (t : Term) (b : Bindings) :
    (p.matchWith ev t b : (Bindings → Visit κ) → Visit κ) = (p.solutions ev t b).visit := by
  funext k
  simp only [matchWith, solutions, Search.visit_map, (visit_eq_search ev p).bindings]

theorem matchOutcome_eq (ev : Evaluator) (p : Pattern) (t : Term) (b : Bindings)
    (strategy : Strategy Bindings) (j : Journal) :
    p.matchOutcome ev t b strategy j = (p.solutions ev t b).run strategy j := by
  rw [matchOutcome, matchWith_eq, Search.outcome_visit]

end Pattern

end TermRewriting
