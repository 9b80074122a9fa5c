import TermRewriting.Proofs.Matching.Handed

/-! Matching with assertions. Elements and arguments are looked up by index here, and each index, each
slice of a list and each difference of counts is asserted to be in range. A visit that is given
beforehand takes the place of all that would come after an assertion that does not hold; it may do
anything. It never comes to that: with every such visit, matching does what it does without assertions. -/

namespace TermRewriting

variable {α κ : Type}

namespace Visit

section

variable (fault : Visit κ)

def slice (xs : List α) (start stop : Nat) (k : List α → Visit κ) : Visit κ :=
  if start ≤ stop ∧ stop ≤ xs.length then k ((xs.take stop).drop start) else fault

def difference (m n : Nat) (k : Nat → Visit κ) : Visit κ := if n ≤ m then k (m - n) else fault

def itemsAt (xs : List α) (places : List Nat) (k : List α → Visit κ) : Visit κ :=
  match places.mapM (xs[·]?) with
  | some items => k items
  | none => fault

def assertedRuns (xs : List α) (least : Nat) (most : Option Nat) (anyStart shortestFirst : Bool)
    (k : (chosen before after : List α) → Visit κ) : Visit κ :=
  let most := Search.largest xs.length most
  if most < least then proceed
  else
    let ascending := List.range' least (most + 1 - least)
    let sizes := if shortestFirst then ascending else ascending.reverse
    let fromEach (lastStart : Nat) : Visit κ :=
      each (List.range (lastStart + 1)) fun start =>
        each sizes fun size =>
          slice fault xs start (start + size) fun chosen =>
          slice fault xs 0 start fun before =>
          slice fault xs (start + size) xs.length fun after => k chosen before after
    if anyStart then difference fault xs.length most fromEach else fromEach 0

end

variable {fault : Visit κ} {xs : List α}

theorem itemsAt_eq [Inhabited α] {places : List Nat} (h : ∀ place ∈ places, place < xs.length)
    (k : List α → Visit κ) : itemsAt fault xs places k = k (places.map (xs.getD · default)) := by
  have found : places.mapM (xs[·]?) = some (places.map (xs.getD · default)) := by
    induction places with
    | nil => rfl
    | cons place places ih =>
      obtain ⟨here, later⟩ := List.forall_mem_cons.mp h
      simp [List.mapM_cons, ih later, here]
  simp only [itemsAt, found]

theorem slice_eq {start stop : Nat} (h : start ≤ stop ∧ stop ≤ xs.length) (k : List α → Visit κ) :
    slice fault xs start stop k = k ((xs.take stop).drop start) := if_pos h

theorem assertedRuns_eq (least : Nat) (most : Option Nat) (anyStart shortestFirst : Bool)
    (k : (chosen before after : List α) → Visit κ) :
    assertedRuns fault xs least most anyStart shortestFirst k = runs xs least most anyStart shortestFirst k := by
  have within : Search.largest xs.length most ≤ xs.length := (Search.le_largest.mp (Nat.le_refl _)).1
  -- A longest run that starts at the last place still fits.
  have fromEach (lastStart : Nat) (fits : lastStart + Search.largest xs.length most ≤ xs.length)
      {sizes : List Nat} (sized : ∀ size ∈ sizes, size ≤ Search.largest xs.length most) :
      (each (List.range (lastStart + 1)) fun start => each sizes fun size =>
        slice fault xs start (start + size) fun chosen => slice fault xs 0 start fun before =>
        slice fault xs (start + size) xs.length fun after => k chosen before after) =
      each (List.range (lastStart + 1)) fun start => each sizes fun size =>
        k ((xs.drop start).take size) (xs.take start) (xs.drop (start + size)) := by
    refine each_congr fun start started => each_congr fun size member => ?_
    have early : start ≤ lastStart := Nat.lt_succ_iff.mp (List.mem_range.mp started)
    have short := sized size member
    rw [slice_eq ⟨by omega, by omega⟩, slice_eq ⟨by omega, by omega⟩, slice_eq ⟨by omega, by omega⟩,
      List.drop_take, Nat.add_sub_cancel_left, List.drop_zero, List.take_length]
  have sized (size : Nat) (member : size ∈ Search.sizes xs.length least most shortestFirst) :
      size ≤ Search.largest xs.length most := (Search.mem_sizes.mp member).2
  have sizes : (if shortestFirst then List.range' least (Search.largest xs.length most + 1 - least)
      else (List.range' least (Search.largest xs.length most + 1 - least)).reverse) =
      Search.sizes xs.length least most shortestFirst := rfl
  unfold assertedRuns runs
  dsimp only
  simp only [sizes]
  refine if_congr Iff.rfl rfl ?_
  cases anyStart with
  | true =>
    simp only [if_true, difference, if_pos within]
    exact fromEach (xs.length - Search.largest xs.length most) (by omega) sized
  | false => exact fromEach 0 (by omega) sized

end Visit

namespace Siblings

section

variable (fault : Visit κ)

def assertedPresentations (s : Siblings) (p : Pattern) (chosen : List Nat) (k : Term → Visit κ) :
    Visit κ :=
  match chosen with
  | [position] =>
    match s.args[position]? with
    | some t => k t
    | none => fault
  | chosen =>
    Visit.andThen
      (if p.width.most.all (chosen.length ≤ ·) then
        if s.attributes.orderless then
          Visit.permutations chosen fun chosen =>
            Visit.itemsAt fault s.args chosen fun ts => k (.sequence ts)
        else Visit.itemsAt fault s.args chosen fun ts => k (.sequence ts)
      else .proceed)
      fun _ =>
        if s.flattens p && !chosen.isEmpty && chosen.length < s.args.length then
          Visit.itemsAt fault s.args chosen fun ts => k (.app s.head ts)
        else .proceed

def assertedChoices (s : Siblings) (p : Pattern) (first last : Bool) (candidates : List Nat)
    (b : Bindings) (k : (chosen before after : List Nat) → Visit κ) : Visit κ :=
  if s.attributes.orderless then s.visitChoices p first last candidates b k
  else if (candidates.filter fun position => s.fits p (s.arg position)).length < p.width.least then .proceed
  else Visit.assertedRuns fault candidates p.width.least (s.most p) (first && !s.whole) (!last) k

def Positions (s : Siblings) (candidates : List Nat) : Prop :=
  candidates.Nodup ∧ ∀ position ∈ candidates, position < s.args.length

instance (s : Siblings) (candidates : List Nat) : Decidable (s.Positions candidates) :=
  inferInstanceAs (Decidable (_ ∧ _))

/-- Matches the element whose number stands at that place of the order, and then those behind it. -/
def assertedElement (s : Siblings) (elements : List (Element (VisitMatches κ))) (order : List Nat)
    (i : Nat) (candidates : List Nat) (b : Bindings) (k : MatchVisitor κ) : Visit κ :=
  if h : i < order.length then
    match elements[order[i]]? with
    | some e =>
      if s.Positions candidates then
        s.assertedChoices fault e.pattern (i == 0) (i + 1 == order.length) candidates b
          fun chosen before after =>
        s.assertedPresentations fault e.pattern chosen fun t =>
        e.matcher ⟨some ⟨s.head, e.position, s.count⟩, true⟩ t b fun b _ =>
        if i + 1 = order.length then
          if !s.whole || (before.isEmpty && after.isEmpty) then k b ⟨before, after⟩ else .proceed
        else
          assertedElement s elements order (i + 1) after b fun b rest => k b ⟨before, rest.after⟩
      else fault
    | none => fault
  else fault
termination_by order.length - i

def visitOrder (orderless : Bool) (elements : List (Element (VisitMatches κ))) : List Nat :=
  let numbers := List.range elements.length
  if orderless then
    [0, 1, 2, 3].flatMap fun r => numbers.filter fun i => elements[i]?.any (·.pattern.rank == r)
  else numbers

def assertedAll (s : Siblings) (elements : List (Element (VisitMatches κ))) (b : Bindings)
    (k : MatchVisitor κ) : Visit κ :=
  let order := visitOrder s.attributes.orderless elements
  if order.isEmpty then if s.args.isEmpty then k b {} else .proceed
  else s.assertedElement fault elements order 0 (List.range s.args.length) b k

end

variable {fault : Visit κ} {s : Siblings} {p : Pattern} {candidates chosen : List Nat}

theorem Positions.of_subperm (h : s.Positions candidates) (sub : chosen.Subperm candidates) :
    s.Positions chosen :=
  have ⟨_, perm, sublist⟩ := sub
  ⟨perm.nodup_iff.mp (h.1.sublist sublist), fun position member => h.2 position (sub.subset member)⟩

theorem Positions.of_choice {before after : List Nat} (h : s.Positions candidates)
    (perm : (before ++ chosen ++ after).Perm candidates) :
    (∀ position ∈ chosen, position < s.args.length) ∧ s.Positions after := by
  refine ⟨fun position member => h.2 position (perm.subset ?_), h.of_subperm ?_⟩
  · simp [member]
  · exact (List.sublist_append_right ..).subperm.trans perm.subperm

theorem positions_range (s : Siblings) : s.Positions (List.range s.args.length) :=
  ⟨List.nodup_range, fun _ => List.mem_range.mp⟩

theorem assertedPresentations_eq (h : ∀ position ∈ chosen, position < s.args.length)
    (k : Term → Visit κ) :
    s.assertedPresentations fault p chosen k = s.visitPresentations p chosen k := by
  have arranged : (Visit.permutations chosen fun chosen =>
      Visit.itemsAt fault s.args chosen fun ts => k (.sequence ts)) =
      Visit.permutations chosen fun chosen => k (.sequence (chosen.map s.arg)) := by
    rw [Search.visit_permutations, Search.visit_permutations]
    have closed : (Search.permutations chosen).Closed :=
      Search.closed_iff_asksOnly.mpr (Search.asksOnly_permutations _)
    refine Search.visit_congr (Search.all_of_closed closed fun perm member => ?_)
    have inRange (position : Nat) (inPerm : position ∈ perm) : position < s.args.length :=
      h position ((Search.mem_permutations.mp member).subset inPerm)
    exact Visit.itemsAt_eq inRange _
  match chosen with
  | [position] =>
    have here : position < s.args.length := h position (by simp)
    simp [assertedPresentations, visitPresentations, arg, here]
  | [] | _ :: _ :: _ =>
    rw [assertedPresentations.eq_2 _ _ _ _ _ (by simp), visitPresentations.eq_2 _ _ _ _ (by simp), arranged,
      Visit.itemsAt_eq h, Visit.itemsAt_eq h]
    rfl

theorem assertedChoices_eq {first last : Bool} {b : Bindings}
    (k : (chosen before after : List Nat) → Visit κ) :
    s.assertedChoices fault p first last candidates b k = s.visitChoices p first last candidates b k := by
  unfold assertedChoices
  split
  · rfl
  · next ordered =>
    unfold visitChoices
    simp only [ordered, Bool.not_false, if_true, Visit.assertedRuns_eq]

theorem next_of_remaining {elements : List (Element (VisitMatches κ))} {order : List Nat} {i : Nat}
    {e : Element (VisitMatches κ)} {later : List (Element (VisitMatches κ))}
    (remaining : (order.drop i).map (elements[·]?) = (e :: later).map some) :
    ∃ h : i < order.length, elements[order[i]]? = some e ∧
      (order.drop (i + 1)).map (elements[·]?) = later.map some ∧
      (i + 1 = order.length ↔ later = []) := by
  have left : order.length - i = later.length + 1 := by simpa using congrArg List.length remaining
  have h : i < order.length := by omega
  rw [List.drop_eq_getElem_cons h, List.map_cons, List.map_cons] at remaining
  obtain ⟨here, after⟩ := List.cons.inj remaining
  refine ⟨h, here, after, ?_⟩
  rw [← List.length_eq_zero_iff]
  omega

theorem assertedElement_eq {elements : List (Element (VisitMatches κ))} {order : List Nat} {i : Nat}
    {e : Element (VisitMatches κ)} {later : List (Element (VisitMatches κ))}
    (remaining : (order.drop i).map (elements[·]?) = (e :: later).map some)
    (valid : s.Positions candidates) (b : Bindings) (k : MatchVisitor κ) :
    s.assertedElement fault elements order i candidates b k =
      s.visitElement (i == 0) e later candidates b k := by
  induction later generalizing i e candidates b k with
  | nil =>
    obtain ⟨h, here, -, last⟩ := next_of_remaining remaining
    rw [assertedElement, dif_pos h, visitElement]
    simp only [here, if_pos valid, last.mpr rfl, beq_self_eq_true, List.isEmpty_nil, if_true,
      assertedChoices_eq]
    refine visitChoices_congr fun chosen before after perm _ => ?_
    exact assertedPresentations_eq (valid.of_choice perm).1 _
  | cons next later ih =>
    obtain ⟨h, here, after, last⟩ := next_of_remaining remaining
    have notLast : i + 1 ≠ order.length := fun isLast => List.cons_ne_nil _ _ (last.mp isLast)
    rw [assertedElement, dif_pos h, visitElement]
    simp only [here, if_pos valid, beq_eq_false_iff_ne.mpr notLast, List.isEmpty_cons, if_neg notLast,
      assertedChoices_eq]
    refine visitChoices_congr fun chosen before after' perm _ => ?_
    obtain ⟨inRange, valid⟩ := valid.of_choice perm
    rw [assertedPresentations_eq inRange]
    refine congrArg (s.visitPresentations e.pattern chosen) (funext fun t => ?_)
    refine congrArg (e.matcher _ t b) (funext fun b => funext fun _ => ?_)
    exact ih after valid b _

theorem map_visitOrder (orderless : Bool) (elements : List (Element (VisitMatches κ))) :
    (visitOrder orderless elements).map (elements[·]?) = (Element.inOrder orderless elements).map some := by
  have all : (List.range elements.length).map (elements[·]?) = elements.map some :=
    List.ext_getElem (by simp) (by simp)
  have ranked (r : Nat) :
      ((List.range elements.length).filter fun i => elements[i]?.any (·.pattern.rank == r)).map
        (elements[·]?) = (elements.filter fun e => e.pattern.rank == r).map some := by
    have filtered := congrArg (List.filter (Option.any (·.pattern.rank == r))) all
    simpa [List.filter_map, Function.comp_def] using filtered
  cases orderless with
  | true => simp only [visitOrder, Element.inOrder, Element.byRank, if_true, List.map_flatMap, ranked]
  | false => exact all

theorem assertedAll_eq : s.assertedAll (κ := κ) fault = s.visitAll := by
  funext elements b k
  have order := map_visitOrder s.attributes.orderless elements
  unfold assertedAll visitAll
  cases inOrder : Element.inOrder s.attributes.orderless elements with
  | nil =>
    rw [inOrder, List.map_nil, List.map_eq_nil_iff] at order
    simp [order]
  | cons e later =>
    rw [inOrder] at order
    have nonempty : (visitOrder s.attributes.orderless elements).isEmpty = false := by
      cases empty : visitOrder s.attributes.orderless elements with
      | nil => simp [empty] at order
      | cons => rfl
    simp only [nonempty, Bool.false_eq_true, if_false]
    exact assertedElement_eq order s.positions_range b k

end Siblings

namespace Pattern

section

variable (fault : Visit κ)

def assertedApplication (visitHead : VisitMatches κ) (elements : List (Element (VisitMatches κ)))
    (attributes : Attributes) (whole : Bool) (t : Term) (b : Bindings) (k : MatchVisitor κ) :
    Visit κ :=
  match t with
  | .app h args =>
    if attributes.flat || (totalWidth (elements.map (·.pattern))).admits args.length then
      visitHead {} h b fun b _ =>
        Siblings.assertedAll fault
          ⟨h, args, attributes, elements.length, whole || !attributes.flat⟩ elements b k
    else .proceed
  | _ => .proceed

def assertedCompound (ev : Evaluator) (head : Pattern) (visitHead : VisitMatches κ)
    (elements : List (Element (VisitMatches κ))) (whole : Bool) (t : Term) (b : Bindings)
    (k : MatchVisitor κ) : Visit κ :=
  let attributes := head.attributes ev
  if t.isSequence && head.symbol? != some "Sequence" then .proceed
  else
    (assertedApplication fault visitHead elements attributes whole t b k).andThen fun _ =>
    if attributes.oneIdentity then visitLone head.literal? elements t b k else .proceed

mutual

/-- Hands over the matches with assertions wherever arguments are distributed among elements. -/
def assertedVisit (ev : Evaluator) : Pattern → VisitMatches κ
  | .named name inner, c, t, b, k =>
    visitValue ev inner c.place t fun value =>
      match b.get? name with
      | some bound => if bound.same value then assertedVisit ev inner c t b k else .proceed
      | none => assertedVisit ev inner c t (b.bind name value) k
  | .optional inner inline, c, t, b, k =>
    if t.isEmptySequence then
      visitDefault ev inline c.place fun value => assertedVisit ev inner {} value b k
    else assertedVisit ev inner {} t b k
  | .alternatives choices, c, t, b, k => assertedAny ev choices c t b k
  | .except excluded fallback, c, t, b, k =>
    (assertedVisit ev excluded c t b fun _ _ => .stop .excluded).barring fun _ =>
      assertedVisit ev fallback c t b k
  | .hold inner, c, t, b, k => assertedVisit ev inner c t b k
  | .test inner predicate, c, t, b, k =>
    let verdict := Thunk.mk fun _ => testHolds ev predicate t
    assertedVisit ev inner { c with whole := true } t b fun b _ =>
      if verdict.get then k b {} else .proceed
  | .condition inner guard, c, t, b, k =>
    assertedVisit ev inner c t b fun b rest =>
      if (ev.evaluate (guard.substitute b)).isTrue then k b rest else .proceed
  | .repeated inner least most, _, t, b, k =>
    if Width.admits ⟨least, most⟩ t.items.length then
      Visit.thread (fun b item k => assertedVisit ev inner {} item b fun b _ => k b) t.items b
        fun b => k b {}
    else .proceed
  | .compound head elements, c, t, b, k =>
    assertedCompound fault ev head (assertedVisit ev head) (assertedFrom ev 1 elements) c.whole t b k
  | .wildcard span head, c, t, b, k => visit ev (.wildcard span head) c t b k
  | .verbatim v, c, t, b, k => visit ev (.verbatim v) c t b k
  | .literal v, c, t, b, k => visit ev (.literal v) c t b k
  | .options cell explicit, c, t, b, k => visit ev (.options cell explicit) c t b k

def assertedAny (ev : Evaluator) : List Pattern → VisitMatches κ
  | [], _, _, _, _ => .proceed
  | p :: ps, c, t, b, k => (assertedVisit ev p c t b k).andThen fun _ => assertedAny ev ps c t b k

def assertedFrom (ev : Evaluator) (position : Nat) : List Pattern → List (Element (VisitMatches κ))
  | [] => []
  | p :: ps => ⟨p, position, assertedVisit ev p⟩ :: assertedFrom ev (position + 1) ps

end

end

variable {fault : Visit κ} {ev : Evaluator}

theorem assertedCompound_eq : assertedCompound fault ev = visitCompound (κ := κ) ev := by
  have application : assertedApplication fault = visitApplication (κ := κ) := by
    funext visitHead elements attributes whole t b k
    cases t <;> simp only [assertedApplication, visitApplication, Siblings.assertedAll_eq]
  funext head visitHead elements whole t b k
  simp only [assertedCompound, visitCompound, application]

theorem assertedAny_eq {choices : List Pattern}
    (each : ∀ p ∈ choices, assertedVisit fault ev p = visit ev p) :
    assertedAny fault ev choices = visitAny ev choices := by
  induction choices with
  | nil => rfl
  | cons p ps ih =>
    obtain ⟨first, later⟩ := List.forall_mem_cons.mp each
    funext c t b k
    rw [assertedAny, visitAny, first, ih later]

theorem assertedFrom_eq {elements : List Pattern}
    (each : ∀ p ∈ elements, assertedVisit fault ev p = visit ev p) (position : Nat) :
    assertedFrom fault ev position elements = visitorsFrom ev position elements := by
  induction elements generalizing position with
  | nil => rfl
  | cons p ps ih =>
    obtain ⟨first, later⟩ := List.forall_mem_cons.mp each
    rw [assertedFrom, visitorsFrom, first, ih later]

theorem assertedVisit_eq (p : Pattern) : assertedVisit fault ev p = visit ev p := by
  induction p using Pattern.induct with
  | wildcard | verbatim | literal | options => funext c t b k; simp only [assertedVisit]
  | named name inner ih =>
    funext c t b k
    rw [assertedVisit, visit]
    refine congrArg (visitValue ev inner c.place t) (funext fun value => ?_)
    cases b.get? name <;> simp only [ih]
  | optional inner inline ih | except excluded fallback ih ih' | hold inner ih
  | test inner predicate ih | condition inner guard ih | repeated inner least most ih =>
    funext c t b k
    simp only [assertedVisit, visit, *]
  | alternatives choices each =>
    funext c t b k
    simp only [assertedVisit, visit, assertedAny_eq each]
  | compound head elements ih each =>
    funext c t b k
    simp only [assertedVisit, visit, ih, assertedFrom_eq each, assertedCompound_eq]

end Pattern

end TermRewriting
