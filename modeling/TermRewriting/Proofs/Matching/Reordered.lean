import TermRewriting.Proofs.Matching.Choosing
import TermRewriting.Proofs.Matching.Row
import TermRewriting.Proofs.Matching.Strategy
import TermRewriting.Proofs.Orderless
import TermRewriting.Proofs.Term.Spelling

/-! Arguments in another order. Where order does not count and the head is not flat, every choice
from the arguments is also a choice from their rearrangements, so that the same bindings are
reached. -/

namespace TermRewriting

theorem Term.eq_of_same {t u want : Term} (ht : t.isExact = true) (hu : u.isExact = true)
    (first : t.same want = true) (second : u.same want = true) : t = u := by
  obtain ⟨numeric, canonical⟩ := Term.same_iff.mp first
  refine (Term.same_iff_eq ht hu).mp (Term.same_iff.mpr ⟨numeric, ?_⟩)
  rw [canonical, (Term.same_iff.mp second).2]

namespace Siblings

variable {s : Siblings} {p : Pattern} {items items' : List Term} {b : Bindings}

/-- If no two of the items do for the same wanted term, then the items that are taken do not depend
on the order. -/
theorem take?_perm {does : Term → Term → Bool} {wanted : List Term} {split : Split Term}
    (only : ∀ want, ∀ t ∈ items, ∀ u ∈ items, does want t = true → does want u = true → t = u)
    (perm : items.Perm items') (taken : take? does wanted items = some split) :
    ∃ after, take? does wanted items' = some ⟨[], split.chosen, after⟩ ∧ after.Perm split.after := by
  induction wanted generalizing items items' split with
  | nil =>
    obtain rfl := Option.some.inj taken
    exact ⟨items', rfl, perm.symm⟩
  | cons want wanted ih =>
    rw [take?_cons_eq_some_iff] at taken
    obtain ⟨x, rest, pulled, later, taken, rfl⟩ := taken
    obtain ⟨does_x, fewer⟩ := perm_of_pull? pulled
    have inItems {t : Term} (member : t ∈ rest) : t ∈ items := fewer.subset (by simp [member])
    have x_mem : x ∈ items := fewer.subset (by simp)
    obtain ⟨rest', pulled'⟩ : ∃ rest', pull? (does want) items' = some (x, rest') := by
      refine pull?_of_mem (fun y member => ⟨fun does_y => ?_, fun eq => eq ▸ does_x⟩) (perm.subset x_mem)
      exact only want y (perm.symm.subset member) x x_mem does_y does_x
    have permRest : rest.Perm rest' :=
      ((fewer.trans perm).trans (perm_of_pull? pulled').2.symm).cons_inv
    obtain ⟨after, taken', permAfter⟩ :=
      ih (fun want t ht u hu => only want t (inItems ht) u (inItems hu)) permRest taken
    exact ⟨after, by simp [take?, pulled', taken'], permAfter⟩

/-- Where order does not count, the arguments may be chosen in any order. -/
theorem mem_splits_perm (orderless : s.attributes.orderless = true) (perm : items.Perm items')
    (exact : ∀ t ∈ items, t.isExact = true) {first last : Bool} {split : Split Term}
    (found : split ∈ (s.splits p first last items b).values) :
    ∃ split' ∈ (s.splits p first last items' b).values,
      split'.chosen.Perm split.chosen ∧ split'.after.Perm split.after := by
  have fitting : (items'.filter (s.fits p)).length = (items.filter (s.fits p)).length :=
    (perm.filter (s.fits p)).length_eq.symm
  unfold splits at found ⊢
  simp only [orderless, Bool.not_true, Bool.false_eq_true, if_false, fitting] at found ⊢
  by_cases few : (items.filter (s.fits p)).length < p.width.least
  · simp [few] at found
  rw [if_neg few] at found ⊢
  cases value : boundTo? b p with
  | none =>
    rw [value] at found
    exact Search.mem_subsets_perm perm found
  | some v =>
    simp only [value, Search.values_ofOption, Option.mem_toList] at found ⊢
    have only (want t : Term) (ht : t ∈ items) (u : Term) (hu : u ∈ items)
        (first : (t.same want && s.fits p t) = true) (second : (u.same want && s.fits p u) = true) :
        t = u := by
      rw [Bool.and_eq_true] at first second
      exact Term.eq_of_same (exact t ht) (exact u hu) first.1 second.1
    obtain ⟨after, taken, permAfter⟩ := take?_perm only perm found
    exact ⟨_, taken, .refl _, permAfter⟩

/-- What is presented where order does not count: one argument alone, or a sequence of the arguments
in any order, or an application of the flat head. -/
theorem mem_presentations_orderless (orderless : s.attributes.orderless = true) {chosen : List Term}
    {t : Term} :
    t ∈ (s.presentations p chosen).values ↔
      chosen = [t] ∨ chosen.length ≠ 1 ∧
        ((∃ run, run.Perm chosen ∧ p.width.most.all (chosen.length ≤ ·) = true ∧ t = .sequence run) ∨
          (s.flattens p && !chosen.isEmpty && chosen.length < s.args.length) = true ∧
            t = .app s.head chosen) := by
  by_cases alone : chosen.length = 1
  · obtain ⟨u, rfl⟩ := List.length_eq_one_iff.mp alone
    have lone : (s.presentations p [u]).values = [u] := rfl
    rw [lone, List.mem_singleton]
    constructor
    · rintro rfl
      exact .inl rfl
    · rintro (eq | ⟨several, -⟩)
      · exact (List.singleton_inj.mp eq).symm
      · exact absurd rfl several
  rw [presentations_of_length_ne_one _ _ alone, Search.values_append, List.mem_append]
  have notOne : chosen ≠ [t] := fun eq => alone (by simp [eq])
  simp only [orderless, if_true, Search.values_ite, Search.values_map, Search.values_done,
    Search.values_one, notOne, alone, false_or, ne_eq, not_false_eq_true, true_and]
  refine or_congr ?_ ?_
  · by_cases most : p.width.most.all (chosen.length ≤ ·) = true
    · simp only [most, if_true, List.mem_map, Search.mem_permutations, true_and, eq_comm]
    · simp [most]
  · by_cases flattens : (s.flattens p && !chosen.isEmpty && chosen.length < s.args.length) = true
    · simp only [flattens, if_true, List.mem_singleton, true_and]
    · simp [flattens]

theorem mem_presentations_perm (orderless : s.attributes.orderless = true)
    (flat : s.attributes.flat = false) (args' : List Term) {chosen chosen' : List Term}
    (perm : chosen'.Perm chosen) {t : Term} (presented : t ∈ (s.presentations p chosen).values) :
    t ∈ (({ s with args := args' } : Siblings).presentations p chosen').values := by
  rw [mem_presentations_orderless orderless] at presented
  refine (mem_presentations_orderless (s := { s with args := args' }) orderless).mpr ?_
  rcases presented with rfl | ⟨several, ⟨run, permRun, room, rfl⟩ | ⟨flattens, -⟩⟩
  · exact .inl (List.perm_singleton.mp perm)
  · rw [← perm.length_eq] at several room
    exact .inr ⟨several, .inl ⟨run, permRun.trans perm.symm, room, rfl⟩⟩
  · simp [Siblings.flattens, flat] at flattens

/-- The elements reach the same bindings with the arguments in any order. The induction is on the
elements: what the first of them leaves is the same up to the order. -/
theorem reaches_distribute_perm (s : Siblings) (args' : List Term)
    (orderless : s.attributes.orderless = true) (flat : s.attributes.flat = false)
    {elements : List (Element Matcher)} {first : Bool} {β : Bindings} (perm : items.Perm items')
    (exact : ∀ t ∈ items, t.isExact = true)
    (reached : (s.distributeBy splits first elements items b).Reaches β) :
    ({ s with args := args' }.distributeBy splits first elements items' b).Reaches β := by
  induction elements generalizing first items items' b with
  | nil =>
    rw [reaches_distributeBy_nil] at reached ⊢
    refine ⟨fun whole => ?_, reached.2⟩
    obtain rfl := reached.1 whole
    exact perm.nil_eq.symm
  | cons e later ih =>
    rw [reaches_distributeBy_cons] at reached ⊢
    obtain ⟨γ, _, ⟨split, inSplits, t, presented, matched, rfl⟩, rest⟩ := reached
    obtain ⟨split', inSplits', permChosen, permAfter⟩ := mem_splits_perm orderless perm exact inSplits
    have presented' := mem_presentations_perm orderless flat args' permChosen presented
    have exactAfter (u : Term) (member : u ∈ split.after) : u.isExact = true :=
      exact u ((rearranged_of_mem_splits inSplits).2.subset (List.mem_append_right _ member))
    exact ⟨γ, split'.after, ⟨split', inSplits', t, presented', matched, rfl⟩,
      ih permAfter.symm exactAfter rest⟩

end Siblings

namespace Pattern

variable {ev : Evaluator} {h : String} {elements : List Pattern}

/-- An application of the symbol is matched by its arguments; it never stands for one of them. -/
theorem reaches_search_call (args : List Term) (b β : Bindings) :
    (search ev (compound (.literal (.symbol h)) elements) {} (.call h args) b).Reaches β ↔
      ((ev.attributes h).flat || (totalWidth elements).admits args.length) = true ∧
        (Siblings.matchAll ⟨.symbol h, args, ev.attributes h, elements.length, true⟩
          (elementsFrom ev 1 elements) b).Reaches β := by
  rw [search_call, Search.reaches_ite, Bool.true_or]

/-- Under a head whose arguments have no order and that is not flat, a pattern has the same matches
with the arguments in any order, whatever its elements are, as long as they inherit no options. -/
theorem allMatches_perm (orderless : (ev.attributes h).orderless = true)
    (flat : (ev.attributes h).flat = false) (explicit : ∀ p ∈ elements, p.Explicit)
    {args args' : List Term} (exact : ∀ t ∈ args, t.isExact = true) (perm : args'.Perm args)
    (j j' : Journal) :
    (∀ m, m ∈ ((compound (.literal (.symbol h)) elements).allMatches ev (.call h args) j).1 ↔
        m ∈ ((compound (.literal (.symbol h)) elements).allMatches ev (.call h args') j').1) ∧
      ((compound (.literal (.symbol h)) elements).isMatch ev (.call h args) j).1 =
        ((compound (.literal (.symbol h)) elements).isMatch ev (.call h args') j').1 := by
  have whole : (compound (.literal (.symbol h)) elements).Explicit := .compound (.literal _) explicit
  have listed (args : List Term) (j : Journal) (m : Bindings) :
      m ∈ ((compound (.literal (.symbol h)) elements).allMatches ev (.call h args) j).1 ↔
        (search ev (compound (.literal (.symbol h)) elements) {} (.call h args) .empty).Reaches m := by
    rw [allMatches_eq, whole.answers_solutions, List.mem_map]
    rfl
  have oneWay {args args' : List Term} (exact : ∀ t ∈ args, t.isExact = true) (perm : args'.Perm args)
      (m : Bindings)
      (reached : (search ev (compound (.literal (.symbol h)) elements) {} (.call h args) .empty).Reaches m) :
      (search ev (compound (.literal (.symbol h)) elements) {} (.call h args') .empty).Reaches m := by
    rw [reaches_search_call] at reached ⊢
    refine ⟨perm.length_eq ▸ reached.1, ?_⟩
    have found := reached.2
    simp only [Siblings.matchAll, ← Siblings.distributeBy_splits] at found ⊢
    exact Siblings.reaches_distribute_perm _ args' orderless flat perm.symm exact found
  have same (m : Bindings) :
      m ∈ ((compound (.literal (.symbol h)) elements).allMatches ev (.call h args) j).1 ↔
        m ∈ ((compound (.literal (.symbol h)) elements).allMatches ev (.call h args') j').1 := by
    rw [listed, listed]
    exact ⟨oneWay exact perm m, oneWay (fun t member => exact t (perm.subset member)) perm.symm m⟩
  refine ⟨same, ?_⟩
  rw [isMatch_eq, isMatch_eq]
  refine congrArg Bool.not (Bool.eq_iff_iff.mpr ?_)
  simp only [List.isEmpty_iff, List.eq_nil_iff_forall_not_mem, same]

/-- The repeated variable of `f[x_, x_, y_]` finds both `a` of `f[a, b, a]`, as it does those of
`f[a, a, b]`. -/
theorem allMatches_perm_repeated :
    ((compound (.literal (.symbol "f")) [.named "x" (.wildcard .one none), .named "x" (.wildcard .one none),
        .named "y" (.wildcard .one none)]).isMatch unorderedF
          (.call "f" [.symbol "a", .symbol "b", .symbol "a"]) {}).1 = true ∧
      ∀ m, m ∈ ((compound (.literal (.symbol "f")) [.named "x" (.wildcard .one none),
          .named "x" (.wildcard .one none), .named "y" (.wildcard .one none)]).allMatches unorderedF
            (.call "f" [.symbol "a", .symbol "b", .symbol "a"]) {}).1 ↔
        m ∈ ((compound (.literal (.symbol "f")) [.named "x" (.wildcard .one none),
          .named "x" (.wildcard .one none), .named "y" (.wildcard .one none)]).allMatches unorderedF
            (.call "f" [.symbol "a", .symbol "a", .symbol "b"]) {}).1 := by
  have explicit (p : Pattern) (member : p ∈ [named "x" (.wildcard .one none),
      named "x" (.wildcard .one none), named "y" (.wildcard .one none)]) : p.Explicit := by
    simp only [List.mem_cons, List.not_mem_nil, or_false, or_self_left] at member
    rcases member with rfl | rfl <;> exact .named _ (.wildcard .one none)
  exact ⟨by decide, (allMatches_perm (by decide) (by decide) explicit (by decide) (.cons _ (.swap ..))
    {} {}).1⟩

end Pattern

end TermRewriting
