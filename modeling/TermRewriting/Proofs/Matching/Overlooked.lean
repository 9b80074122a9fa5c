import TermRewriting.Proofs.Matching.Kept
import TermRewriting.Proofs.Matching.OneIdentity

/-! What the test beforehand overlooks. A term that a pattern matches on its own passes the test, unless
it spells a truth value otherwise than the pattern or is itself a sequence. Where none of the arguments
chosen for an element is such a term, leaving out those that fail the test loses no match. -/

namespace TermRewriting

namespace Pattern

/-- Whether the test beforehand rejects the term although its match may succeed: a literal is spelled
otherwise, or what is asked of siblings is asked of their sequence. -/
def overlooks (t : Term) : Pattern → Bool
  | .wildcard .many (some head) | .wildcard .any (some head) => t.isSequence && !t.isHeadedBy head
  | .named _ inner | .hold inner | .test inner _ | .condition inner _ => inner.overlooks t
  | .verbatim v | .literal v => v.same t && !(v == t)
  | .options _ _ => t.isSequence
  | _ => false

/-- Only sequences and terms in which truth values occur are overlooked. -/
theorem overlooks_eq_false {p : Pattern} {t : Term} (alone : t.isSequence = false)
    (free : t.isTruthFree = true) : p.overlooks t = false := by
  induction p using Pattern.induct with
  | wildcard span head =>
    cases span <;> cases head <;> simp [overlooks, alone]
  | named _ _ ih | hold _ ih | test _ _ ih | condition _ _ ih => exact ih
  | verbatim v | literal v => simp [overlooks, Term.same_eq_beq (.inr free)]
  | options => exact alone
  | _ => rfl

/-- What is passed as an option is a rule or a list. -/
theorem mayMatch_of_pass? {options new : Options} {t : Term} (h : options.pass? t = some new) :
    (t.isCall "Rule" || t.isCall "RuleDelayed" || t.isCall "List") = true := by
  cases t with
  | app head args =>
    rw [Options.pass?] at h
    split at h
    · next list => simp [Term.isCall, list]
    · obtain ⟨_, found, -⟩ := Option.map_eq_some_iff.mp h
      rw [Term.optionRule?] at found
      split at found
      · next rule => simp [rule]
      · cases found
  | _ => cases h

theorem mayMatch_of_passAll? {options new : Options} {ts : List Term}
    (h : options.passAll? ts = some new) :
    ∀ t ∈ ts, (t.isCall "Rule" || t.isCall "RuleDelayed" || t.isCall "List") = true := by
  induction ts generalizing options with
  | nil => simp
  | cons t ts ih =>
    obtain ⟨_, first, later⟩ := Option.bind_eq_some_iff.mp h
    exact List.forall_mem_cons.mpr ⟨mayMatch_of_pass? first, ih later⟩

/-- What the test beforehand has to do with a match of the term. -/
structure Tested (p : Pattern) (t : Term) : Prop where
  alone : p.mayMatch t = !p.overlooks t
  each : t.isSequence = true → t.args.length ≠ 1 → p.width.most.all (t.args.length ≤ ·) = true →
    ∀ u ∈ t.args, p.mayMatch u = true
  enough : t.items ≠ [] → p.width.least ≤ t.items.length

variable {p : Pattern} {t : Term}

theorem Tested.of_always (always : ∀ u, p.mayMatch u = true) (nothing : p.overlooks t = false)
    (least : t.items ≠ [] → p.width.least ≤ t.items.length) : p.Tested t :=
  ⟨by rw [always, nothing]; rfl, fun _ _ _ u _ => always u, least⟩

theorem tested_wildcard {span : Span} {head : Option Term} (single : span = .one → t.isSequence = false)
    (headed : t.items.all (headFits head) = true) : (wildcard span head).Tested t := by
  have enough : t.items ≠ [] → span.width.least ≤ t.items.length := by
    intro nonempty
    cases span with
    | any => exact Nat.zero_le _
    | _ => exact List.length_pos_iff.mpr nonempty
  cases head with
  | none => exact .of_always (fun _ => rfl) (by cases span <;> rfl) enough
  | some head =>
    refine ⟨?_, fun sequence _ _ u member => ?_, enough⟩
    · cases sequence : t.isSequence with
      | true =>
        cases span with
        | one => simp [sequence] at single
        | _ => simp [mayMatch, overlooks, sequence]
      | false =>
        rw [Term.items_eq_singleton sequence] at headed
        have headed : t.isHeadedBy head = true := by simpa [headFits] using headed
        cases span <;> simp [mayMatch, overlooks, sequence, headed]
    · rw [Term.items, if_pos sequence] at headed
      exact List.all_eq_true.mp headed u member

theorem tested_literal {v : Term} (same : v.same t = true) : (literal v).Tested t := by
  refine ⟨by simp [mayMatch, overlooks, same], fun _ several few u member => ?_, List.length_pos_iff.mpr⟩
  have : t.args.length ≤ 1 := of_decide_eq_true few
  have none : t.args = [] := List.eq_nil_of_length_eq_zero (by omega)
  simp [none] at member

/-- Whenever a match is found, the test beforehand is as described. -/
theorem tested_search (ev : Evaluator) (p : Pattern) (c : Context) (t : Term) (b : Bindings) :
    Search.All (fun _ => p.Tested t) (p.search ev c t b) := by
  induction p using Pattern.induct generalizing c t b with
  | wildcard span head =>
    cases span with
    | one =>
      rw [search, Search.all_ite]
      intro fits
      simp only [Bool.and_eq_true, Bool.not_eq_true'] at fits
      refine Search.all_one.mpr (tested_wildcard (fun _ => fits.1) ?_)
      simpa [Term.items_eq_singleton fits.1] using fits.2
    | many =>
      rw [search, Search.all_ite]
      exact fun fits => Search.all_one.mpr (tested_wildcard (by simp) (Bool.and_eq_true_iff.mp fits).2)
    | any =>
      rw [search, Search.all_ite]
      exact fun fits => Search.all_one.mpr (tested_wildcard (by simp) fits)
  | named name inner ih =>
    have outer (b : Bindings) : Search.All (fun _ => (named name inner).Tested t) (search ev inner c t b) :=
      (ih c t b).imp fun _ h => ⟨h.alone, h.each, h.enough⟩
    rw [search, Search.all_bind]
    refine Search.all_of_forall _ fun value => ?_
    cases b.get? name with
    | none => exact outer _
    | some bound => exact Search.all_ite.mpr fun _ => outer b
  | optional inner inline =>
    exact Search.all_of_forall _ fun _ => .of_always (fun _ => rfl) rfl fun _ => Nat.zero_le _
  | alternatives choices ih =>
    have tried : Search.All (fun _ => ∃ p ∈ choices, p.Tested t) (searchAny ev choices c t b) :=
      all_searchAny fun p member => (ih p member c t b).imp fun _ h => ⟨p, member, h⟩
    refine tried.imp fun _ tested => .of_always (fun _ => rfl) rfl fun nonempty => ?_
    obtain ⟨p, member, h⟩ := tested
    exact Nat.le_trans (least_widthOfAny_le member) (h.enough nonempty)
  | except | compound =>
    exact Search.all_of_forall _ fun _ => .of_always (fun _ => rfl) rfl List.length_pos_iff.mpr
  | verbatim v =>
    rw [search, Search.all_ite]
    intro same
    obtain ⟨alone, each, enough⟩ := tested_literal same
    exact Search.all_one.mpr ⟨alone, each, enough⟩
  | literal v =>
    rw [search, Search.all_ite]
    exact fun same => Search.all_one.mpr (tested_literal same)
  | hold inner ih => exact (ih c t b).imp fun _ h => ⟨h.alone, h.each, h.enough⟩
  | test inner predicate ih | condition inner guard ih =>
    exact ((ih _ t b).imp fun _ h => ⟨h.alone, h.each, h.enough⟩).filter _
  | repeated inner least most ih =>
    rw [search, Search.all_ite]
    intro admits
    exact Search.all_of_forall _ fun _ =>
      .of_always (fun _ => rfl) rfl fun _ => (Width.admits_iff.mp admits).1
  | options cell explicit =>
    rw [search, Search.all_bind]
    refine Search.all_of_forall _ fun options => ?_
    cases passed : Options.passAll? options t.items with
    | none => trivial
    | some new =>
      have each := mayMatch_of_passAll? passed
      refine Search.all_one.mpr ⟨?_, fun sequence _ _ => ?_, fun _ => Nat.zero_le _⟩
      · cases sequence : t.isSequence with
        | true =>
          have isCall : t.isCall "Sequence" = true := sequence
          simp [mayMatch, overlooks, sequence, Term.isCall_eq_false isCall]
        | false =>
          rw [Term.items_eq_singleton sequence] at each
          have passes : (Pattern.options cell explicit).mayMatch t = true := each t (by simp)
          rw [passes, overlooks, sequence]
          rfl
      · rwa [Term.items, if_pos sequence] at each

end Pattern

namespace Siblings

variable {α : Type} {s : Siblings} {p : Pattern} {first last : Bool} {items : List Term} {b : Bindings}

/-- The choices of arguments for an element if those have to pass that it takes. -/
def splitsPassing (s : Siblings) (passes : Term → Bool) (p : Pattern) (first last : Bool)
    (items : List Term) (b : Bindings) : Search (Split Term) :=
  let least := p.width.least
  if (items.filter passes).length < least then .done
  else if !s.attributes.orderless then Search.runs items least (s.most p) (first && !s.whole) (!last)
  else match boundTo? b p with
    | some value => .ofOption (take? (fun want t => t.same want && passes t) (s.needed value) items)
    | none => Search.subsets passes items least (s.most p) (!last)

theorem splits_eq_splitsPassing :
    s.splits p first last items b = s.splitsPassing (s.fits p) p first last items b := rfl

theorem pull?_of_holds {holds holds' : α → Bool} {xs rest : List α} {x : α}
    (h : pull? holds xs = some (x, rest)) (fewer : ∀ y, holds' y = true → holds y = true)
    (here : holds' x = true) : pull? holds' xs = some (x, rest) := by
  obtain ⟨-, earlier, later, rfl, rfl, none⟩ := pull?_eq_some_iff.mp h
  refine pull?_eq_some_iff.mpr ⟨here, earlier, later, rfl, rfl, fun y inEarlier => ?_⟩
  exact Bool.eq_false_iff.mpr (mt (fewer y) (Bool.eq_false_iff.mp (none y inEarlier)))

/-- What is taken for the wanted terms is also taken if all of it passes and nothing else has to. -/
theorem take?_of_passes {does : Term → α → Bool} {passes : α → Bool} {wanted : List Term} {xs : List α}
    {split : Split α} (h : take? does wanted xs = some split)
    (passed : ∀ x ∈ split.chosen, passes x = true) :
    take? (fun want x => does want x && passes x) wanted xs = some split := by
  induction wanted generalizing xs split with
  | nil => exact h
  | cons want wanted ih =>
    obtain ⟨x, rest, pulled, split, found, rfl⟩ := take?_cons_eq_some_iff.mp h
    obtain ⟨here, passed⟩ := List.forall_mem_cons.mp passed
    have both : (does want x && passes x) = true := Bool.and_eq_true_iff.mpr ⟨(perm_of_pull? pulled).1, here⟩
    exact take?_cons_eq_some_iff.mpr ⟨x, rest,
      pull?_of_holds pulled (fun y both => (Bool.and_eq_true_iff.mp both).1) both, split, ih found passed, rfl⟩

/-- A choice is still there when arguments have to pass, if all it takes do. A variable that is already
bound must not take too few. -/
theorem mem_splitsPassing {passes : Term → Bool} {split : Split Term}
    (h : split ∈ (s.splitsPassing (fun _ => true) p first last items b).values)
    (passed : ∀ u ∈ split.chosen, passes u = true)
    (enough : ∀ v, boundTo? b p = some v → p.width.least ≤ split.chosen.length) :
    split ∈ (s.splitsPassing passes p first last items b).values := by
  have room (perm : (split.before ++ split.chosen ++ split.after).Perm items)
      (enough : p.width.least ≤ split.chosen.length) : ¬ (items.filter passes).length < p.width.least := by
    have count := (perm.filter passes).length_eq
    rw [List.filter_append, List.filter_append, List.filter_eq_self.mpr passed, List.length_append,
      List.length_append] at count
    omega
  unfold splitsPassing at h ⊢
  dsimp only at h ⊢
  split at h
  · cases h
  split at h
  · next ordered =>
    have perm : (split.before ++ split.chosen ++ split.after).Perm items := .of_eq (Search.append_of_mem_runs h)
    rw [if_neg (room perm (Search.least_le_of_mem_runs h)), if_pos ordered]
    exact h
  · next unordered =>
    cases bound : boundTo? b p with
    | none =>
      simp only [bound, Search.mem_subsets] at h
      obtain ⟨size, chosen, rest, sized, found, rfl⟩ := h
      obtain ⟨perm, length, -⟩ := Search.perm_of_mem_choose found
      rw [if_neg (room perm (length ▸ (Search.mem_sizes.mp sized).1)), if_neg unordered]
      simp only [Search.mem_subsets]
      exact ⟨size, chosen, rest, sized, Search.mem_choose_of_fits found passed, rfl⟩
    | some value =>
      simp only [bound, Search.values_ofOption, Option.mem_toList, Bool.and_true] at h
      have perm := (perm_of_take? h).1
      rw [if_neg (room (by rwa [before_of_take? h]) (enough value bound)), if_neg unordered]
      simp only [Search.values_ofOption, Option.mem_toList]
      exact take?_of_passes h passed

theorem most_of_mem_presentations {chosen : List Term} {t : Term} (several : chosen.length ≠ 1)
    (apart : s.flattens p = false) (h : t ∈ (s.presentations p chosen).values) :
    p.width.most.all (chosen.length ≤ ·) = true := by
  by_contra many
  rw [presentations_of_length_ne_one _ _ several, if_neg many] at h
  simp [apart] at h

end Siblings

namespace Pattern

/-- What a visitor is left with that follows a strategy through the matches of a term in some place. -/
def attemptOutcome (ev : Evaluator) (p : Pattern) (c : Context) (t : Term) (b : Bindings)
    (strategy : Strategy Bindings) (j : Journal) : Outcome Bindings :=
  Visit.outcome (fun k => p.visit ev c t b fun b _ => k b) strategy j

theorem holds_of_mem_seen {ev : Evaluator} {p : Pattern} {c : Context} {t : Term} {b nb : Bindings}
    {strategy : Strategy Bindings} {j : Journal} {C : Prop}
    (reported : nb ∈ (p.attemptOutcome ev c t b strategy j).seen)
    (holds : Search.All (fun _ => C) (p.search ev c t b)) : C := by
  have outcome : p.attemptOutcome ev c t b strategy j =
      ((p.search ev c t b).map (·.bindings)).run strategy j := by
    simp only [attemptOutcome, (visit_eq_search ev p).bindings, ← Search.visit_map, Search.outcome_visit]
  have runs := Search.run_runsOver ((p.search ev c t b).map (·.bindings)) strategy j
  rw [outcome] at reported
  have answer := runs.seen_prefix.subset (Array.mem_toList_iff.mpr reported)
  have mapped : Search.All (fun _ => C) ((p.search ev c t b).map (·.bindings)) := Search.all_map.mpr holds
  exact mapped.answers j nb answer

theorem same_of_bound (ev : Evaluator) (p : Pattern) (c : Context) (t : Term) (b : Bindings) :
    Search.All (fun _ => ∀ v, Siblings.boundTo? b p = some v → p.isOptional = false → v.same t = true)
      (p.search ev c t b) := by
  cases p with
  | named name inner =>
    by_cases required : inner.optionalDefault? = none
    · simp only [search, valueOf, required, Search.all_bind, Search.all_one]
      cases found : b.get? name with
      | none => exact Search.all_of_forall _ fun _ v bound => by simp [Siblings.boundTo?, found] at bound
      | some bound =>
        refine Search.all_ite.mpr fun same => Search.all_of_forall _ fun _ v isBound _ => ?_
        rwa [← Option.some.inj (found.symm.trans isBound)]
    · refine Search.all_of_forall _ fun _ v _ isRequired => ?_
      rw [isOptional, optionalDefault?, Option.isSome_eq_false_iff, Option.isNone_iff_eq_none] at isRequired
      exact absurd isRequired required
  | _ => exact Search.all_of_forall _ fun _ _ bound => by cases bound

end Pattern

namespace Siblings

variable {α : Type} {s : Siblings} {p : Pattern} {first last : Bool} {items : List Term} {b : Bindings}

theorem length_of_take? {does : Term → α → Bool} {wanted : List Term} {xs : List α} {split : Split α}
    (h : take? does wanted xs = some split) : split.chosen.length = wanted.length := by
  induction wanted generalizing xs split with
  | nil =>
    obtain rfl := Option.some.inj h
    rfl
  | cons want wanted ih =>
    obtain ⟨x, rest, -, split, found, rfl⟩ := take?_cons_eq_some_iff.mp h
    exact congrArg (· + 1) (ih found)

theorem length_needed {v t : Term} (same : v.same t = true) (sequence : t.isSequence = true) :
    (s.needed v).length = t.items.length := by
  have canonical : v.canonical = t.canonical := (Term.same_iff.mp same).2
  have isSequence : v.isSequence = true :=
    (Term.eq_of_canonical Term.isSequence_canonical canonical).trans sequence
  have arguments : v.args.length = t.args.length := by
    have := congrArg (·.args.length) canonical
    simpa [Term.args_canonical] using this
  rw [needed, isSequence, Bool.true_or, if_pos rfl, arguments, Term.items, if_pos sequence]

/-- What a bound variable takes is presented as what it is bound to, so that it takes enough if it takes
anything. -/
theorem least_le_of_bound {v t : Term} {split : Split Term}
    (found : split ∈ (s.splitsPassing (fun _ => true) p first last items b).values)
    (presented : t ∈ (s.presentations p split.chosen).values) (apart : s.flattens p = false)
    (bound : boundTo? b p = some v) (same : v.same t = true) (tested : p.Tested t)
    (nonempty : split.chosen ≠ []) : p.width.least ≤ split.chosen.length := by
  unfold splitsPassing at found
  dsimp only at found
  split at found
  · cases found
  split at found
  · exact Search.least_le_of_mem_runs found
  simp only [bound, Search.values_ofOption, Option.mem_toList, Bool.and_true] at found
  have length := length_of_take? found
  obtain ⟨run, order, rfl⟩ := (perm_of_mem_presentations presented).resolve_right (by simp [apart])
  have count : run.length = split.chosen.length := order.perm.length_eq
  have items : (Term.ofRun run).items.length = split.chosen.length := by
    by_cases sequence : (Term.ofRun run).isSequence = true
    · rw [length, length_needed same sequence]
    · have alone : run.length = 1 := by
        by_contra several
        rw [Term.ofRun_of_length_ne_one several] at sequence
        exact sequence rfl
      rw [Term.items_eq_singleton (Bool.eq_false_iff.mpr sequence), ← count, alone]
      rfl
  have some : (Term.ofRun run).items ≠ [] := by
    rw [← List.length_pos_iff, items]
    exact List.length_pos_iff.mpr nonempty
  exact items ▸ tested.enough some

/-- All that is chosen passes the test if what it is presented as is matched and none of it is
overlooked. -/
theorem fits_of_tested {t : Term} {chosen : List Term} (presented : t ∈ (s.presentations p chosen).values)
    (apart : s.flattens p = false) (tested : p.Tested t) (seen : ∀ u ∈ chosen, p.overlooks u = false) :
    ∀ u ∈ chosen, s.fits p u = true := by
  suffices each : ∀ u ∈ chosen, p.mayMatch u = true from fun u member => by simp [fits, each u member]
  obtain ⟨run, order, rfl⟩ := (perm_of_mem_presentations presented).resolve_right (by simp [apart])
  have count : run.length = chosen.length := order.perm.length_eq
  intro u member
  have inRun : u ∈ run := order.perm.mem_iff.mpr member
  by_cases alone : run.length = 1
  · obtain ⟨only, rfl⟩ := List.length_eq_one_iff.mp alone
    obtain rfl := List.mem_singleton.mp inRun
    have passes := tested.alone
    rwa [Term.ofRun_singleton, seen u member] at passes
  · rw [Term.ofRun_of_length_ne_one alone] at tested
    have few := most_of_mem_presentations (count ▸ alone) apart presented
    exact tested.each rfl alone (count ▸ few) u inRun

end Siblings

namespace Pattern

variable {ev : Evaluator} {p : Pattern} {c : Context} {t : Term} {b nb : Bindings}
  {strategy : Strategy Bindings} {j : Journal}

/-- A term for which a match is reported passes the test beforehand, unless it is overlooked, and what
is overlooked are only sequences and terms in which truth values occur. A choice of arguments, presented
as a term for which a match is reported, is still there when those that fail the test are left out, unless
one of them is overlooked, or a variable that asks for something is bound to nothing. -/
theorem mayMatch_of_reported (reported : nb ∈ (p.attemptOutcome ev c t b strategy j).seen) :
    p.mayMatch t = !p.overlooks t ∧
      (t.isSequence = false → t.isTruthFree = true → p.mayMatch t = true) ∧
      ∀ (s : Siblings) (first last : Bool) (items : List Term) (split : Split Term),
        split ∈ (s.splitsPassing (fun _ => true) p first last items b).values →
        t ∈ (s.presentations p split.chosen).values →
        (∀ u ∈ split.chosen, p.overlooks u = false) →
        (split.chosen = [] → p.width.least = 0) →
          split ∈ (s.splits p first last items b).values := by
  have tested : p.Tested t := holds_of_mem_seen reported (tested_search ev p c t b)
  refine ⟨tested.alone, fun alone free => ?_, fun s first last items split found presented seen nothing => ?_⟩
  · rw [tested.alone, overlooks_eq_false alone free]
    rfl
  rw [Siblings.splits_eq_splitsPassing]
  cases flattens : s.flattens p with
  | true =>
    have passAll : s.fits p = fun _ => true := funext fun u => by rw [Siblings.fits, flattens, Bool.true_or]
    rwa [passAll]
  | false =>
    refine Siblings.mem_splitsPassing found (Siblings.fits_of_tested presented flattens tested seen) ?_
    intro v bound
    by_cases taken : split.chosen = []
    · rw [nothing taken]
      exact Nat.zero_le _
    cases optional : p.isOptional with
    | true =>
      rw [width_of_isOptional optional]
      exact Nat.zero_le _
    | false =>
      have same : v.same t = true :=
        holds_of_mem_seen reported (same_of_bound ev p c t b) v bound optional
      exact Siblings.least_le_of_bound found presented flattens bound same tested taken

theorem mayMatch_of_reported_integer :
    let p := wildcard .one (some (.symbol "Integer"))
    let s : Siblings := ⟨.symbol "f", [.symbol "a", .integer 1], { orderless := true }, 1, false⟩
    let split : Split Term := ⟨[], [.integer 1], [.symbol "a"]⟩
    .empty ∈ (p.attemptOutcome .bare {} (.integer 1) .empty .all {}).seen ∧
      p.mayMatch (.symbol "a") = false ∧ p.mayMatch (.integer 1) = true ∧
      split ∈ (s.splits p true true s.args .empty).values := by
  intro p s split
  have reported : .empty ∈ (p.attemptOutcome .bare {} (.integer 1) .empty .all {}).seen :=
    List.mem_toArray.mpr (List.mem_singleton_self _)
  obtain ⟨-, passes, kept⟩ := mayMatch_of_reported reported
  have found : split ∈ (s.splitsPassing (fun _ => true) p true true s.args .empty).values :=
    List.mem_cons_of_mem _ (List.mem_singleton_self _)
  have seen : ∀ u ∈ split.chosen, p.overlooks u = false := fun _ _ => rfl
  exact ⟨reported, by decide, passes rfl rfl,
    kept s true true s.args split found (List.mem_singleton_self _) seen nofun⟩

/-- A variable that is bound to nothing takes nothing and matches, but it is given up beforehand where no
argument passes its test. -/
example :
    let p := named "x" (.verbatim (.sequence []))
    let b := Bindings.empty.bind "x" (.sequence [])
    let s : Siblings := ⟨.symbol "f", [.symbol "a"], { orderless := true }, 1, false⟩
    ((s.splitsPassing (fun _ => true) p true true s.args b).values.map fun split => split.chosen.length) = [0] ∧
      (p.attemptOutcome .bare {} (.sequence []) b .all {}).seen.size = 1 ∧
      (s.splits p true true s.args b).values.isEmpty = true := by decide

/-- Literals are compared by structure before they are matched by sameness, and a sequence is tested as a
term before its siblings are matched one by one. -/
theorem overlooks_spelling_and_sequence :
    ∃ p q, compile (.symbol "True") = .ok p ∧ compile (.call "BlankSequence" [.symbol "h"]) = .ok q ∧
      (p.attemptOutcome .bare {} (.boolean true) .empty .all {}).seen.toList.isEmpty = false ∧
      p.mayMatch (.boolean true) = false ∧
      (q.attemptOutcome .bare {} (.sequence [.call "h" []]) .empty .all {}).seen.toList.isEmpty = false ∧
      q.mayMatch (.sequence [.call "h" []]) = false :=
  ⟨_, _, rfl, rfl, by decide, by decide, by decide, by decide⟩

end Pattern

end TermRewriting
