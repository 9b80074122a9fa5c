import TermRewriting.Proofs.Matching.Subsets

/-! Two ways to choose that agree. Where order does not count, a variable that is bound already takes
what it is bound to straight from the arguments that are left. It might as well try all subsets of
them: for regular patterns and arranged terms the same bindings are reached. -/

namespace TermRewriting

open Bindings (optionOf?)

/-- The two searches reach the same bindings, and only arranged ones. -/
def Search.ReachAlike (ev : Evaluator) (le : Term → Term → Prop) (s s' : Search Match) : Prop :=
  ∀ β, (s.Reaches β ↔ s'.Reaches β) ∧ (s.Reaches β → β.Arranged ev le)

open Search (ReachAlike)

namespace Pattern

/-- From arranged terms and bindings, both ways to choose reach the same bindings, arranged again. What
may be left out must not be bound yet. -/
def ChoicesAgree (ev : Evaluator) (le : Term → Term → Prop) (p : Pattern) : Prop :=
  ∀ c t b, c.whole = true → t.ArrangedRun ev le → b.Arranged ev le → (∀ x ∈ p.leftOut ev, b.get? x = none) →
    ReachAlike ev le (searchBy ev Siblings.splits p c t b) (searchBy ev Siblings.allSplits p c t b)

variable {ev : Evaluator} {le : Term → Term → Prop} {choose : Chooser} {p : Pattern} {c : Context} {t : Term}
  {b β γ : Bindings}

theorem get?_of_reaches {x : String} (other : x ∉ p.binds) (unmarked : optionOf? x = none)
    (reached : (searchBy ev Siblings.splits p c t b).Reaches β) : β.get? x = b.get? x := by
  rw [searchBy_splits] at reached
  obtain ⟨m, found, rfl⟩ := reached
  exact (keeps_search_binds p (Bindings.Steps.get? other unmarked) c t b).values m found

theorem optionalDefault?_eq_none {inner : Pattern} (required : inner.isOptional = false) :
    inner.optionalDefault? = none := by
  simpa [isOptional] using required

/-- Of exact terms, a variable that is bound already matches only what it is bound to. -/
theorem eq_of_reaches_bound {x : String} {inner : Pattern} (required : inner.isOptional = false) {v : Term}
    (bound : b.get? x = some v) (exactValue : v.isExact = true) (exact : t.isExact = true)
    (reached : (searchBy ev choose (.named x inner) c t b).Reaches β) :
    t = v ∧ (searchBy ev choose inner c t b).Reaches β := by
  obtain ⟨value, isValue, ⟨u, isBound, same, reached⟩ | ⟨free, -⟩⟩ := reaches_named.mp reached
  · obtain rfl := Option.some.inj (bound.symm.trans isBound)
    rw [valueOf, optionalDefault?_eq_none required] at isValue
    obtain rfl := List.mem_singleton.mp isValue
    exact ⟨((Term.same_iff_eq exactValue exact).mp same).symm, reached⟩
  · simp [bound] at free

/-- Elements that can be matched one after the other from these bindings: what one may leave out, none
before it binds, and nothing binds it yet. -/
structure Ready (ev : Evaluator) (le : Term → Term → Prop) (free : Bool) (ps : List Pattern)
    (b : Bindings) : Prop where
  agree : ∀ p ∈ ps, p.ChoicesAgree ev le
  named : free = true → ∀ x inner, .named x inner ∈ ps → optionOf? x = none ∧ inner.Sized ev
  unmarked : ∀ p ∈ ps, ∀ x ∈ p.leftOutAt ev free, optionOf? x = none
  spares : ps.Pairwise (Spares ev free)
  arranged : b.Arranged ev le
  unbound : ∀ p ∈ ps, ∀ x ∈ p.leftOutAt ev free, b.get? x = none

namespace Ready

variable {free : Bool} {ps : List Pattern}

theorem head (h : Ready ev le free (p :: ps) b) (whole : c.whole = true) (arranged : t.ArrangedRun ev le) :
    ReachAlike ev le (searchBy ev Siblings.splits p c t b) (searchBy ev Siblings.allSplits p c t b) :=
  h.agree p (by simp) c t b whole arranged h.arranged
    fun x member => h.unbound p (by simp) x (List.mem_append_right _ member)

theorem tail (h : Ready ev le free (p :: ps) b) (whole : c.whole = true) (arranged : t.ArrangedRun ev le)
    (reached : (searchBy ev Siblings.splits p c t b).Reaches γ) : Ready ev le free ps γ := by
  obtain ⟨spares, later⟩ := List.pairwise_cons.mp h.spares
  refine ⟨fun q member => h.agree q (by simp [member]),
    fun free x inner member => h.named free x inner (by simp [member]),
    fun q member => h.unmarked q (by simp [member]), later, (h.head whole arranged γ).2 reached,
    fun q member x named => ?_⟩
  have inAll : q ∈ p :: ps := by simp [member]
  rw [get?_of_reaches (spares q member x named) (h.unmarked q inAll x named) reached]
  exact h.unbound q inAll x named

end Ready

end Pattern

namespace Siblings

open Pattern (searchBy Ready)

variable {ev : Evaluator} {le : Term → Term → Prop} {s : Siblings} {first last : Bool}
  {items items' after after' : List Term} {e : Element Unit} {ps : List Pattern} {b β γ : Bindings}

theorem exists_of_boundTo? {p : Pattern} (ready : Ready ev le true (p :: ps) b)
    (bound : boundTo? b p ≠ none) :
    ∃ x inner v, p = .named x inner ∧ inner.isOptional = false ∧ b.get? x = some v ∧ v.ArrangedRun ev le ∧
      inner.Sized ev := by
  cases p with
  | named x inner =>
    obtain ⟨v, isBound⟩ := Option.ne_none_iff_exists'.mp bound
    obtain ⟨unmarked, sized⟩ := ready.named rfl x inner (by simp)
    refine ⟨x, inner, v, rfl, ?_, isBound, ready.arranged x v unmarked isBound, sized⟩
    rw [Bool.eq_false_iff]
    intro optional
    have unbound := ready.unbound (.named x inner) (by simp) x
      (by simp [Pattern.leftOutAt, Pattern.optionalName?, optional])
    cases isBound.symm.trans unbound
  | _ => exact absurd rfl bound

/-- Where order does not count, a variable that is bound already matches only what it is bound to. -/
theorem boundTo?_eq_of_reaches {p : Pattern} {choose : Chooser} {c : Context} {t : Term}
    (ready : Ready ev le true (p :: ps) b) (bound : boundTo? b p ≠ none) (exact : t.isExact = true)
    (reached : (searchBy ev choose p c t b).Reaches γ) :
    boundTo? b p = some t ∧ t.ArrangedRun ev le := by
  obtain ⟨x, inner, v, rfl, required, isBound, arranged, -⟩ := exists_of_boundTo? ready bound
  obtain ⟨rfl, -⟩ := Pattern.eq_of_reaches_bound required isBound arranged.isExact exact reached
  exact ⟨isBound, arranged⟩

theorem width_of_reaches_bound {p : Pattern} {c : Context} {t : Term}
    (ready : Ready ev le true (p :: ps) b) (bound : boundTo? b p ≠ none) (exact : t.isExact = true)
    (reached : (searchBy ev splits p c t b).Reaches γ) :
    (t.isSequence = false → p.width.admits 1 = true) ∧
      ∀ ts, t = .sequence ts → p.width.least ≤ ts.length := by
  refine ⟨fun alone => Pattern.admits_one_of_reaches alone reached, fun ts run => ?_⟩
  by_cases empty : ts = []
  · obtain ⟨x, inner, v, rfl, required, isBound, arranged, sized⟩ := exists_of_boundTo? ready bound
    obtain ⟨-, within⟩ := Pattern.eq_of_reaches_bound required isBound arranged.isExact exact reached
    subst run empty
    rw [Pattern.searchBy_splits] at within
    exact Nat.le_of_eq (sized c b γ within)
  · exact Pattern.least_le_of_reaches empty (run ▸ reached)

/-- What an element takes by the shortcut, it takes of all subsets too. -/
theorem Arranged.takes_allSplits (h : s.Arranged ev le) (arranges : ev.Arranges le)
    (ready : Ready ev le s.attributes.orderless (e.pattern :: ps) b) (remain : s.Remain items items')
    (takes : s.Takes splits (e.matchedBy (searchBy ev splits)) first last items b γ after) :
    Ready ev le s.attributes.orderless ps γ ∧ ∃ after',
      s.Takes allSplits (e.matchedBy (searchBy ev allSplits)) first last items' b γ after' ∧
        s.Remain after after' := by
  obtain ⟨split, inSplits, t, presented, reached, rfl⟩ := takes
  have found : t.ArrangedRun ev le ∧ ∃ split' ∈ (allSplits s e.pattern first last items' b).values,
      t ∈ (s.presentations e.pattern split'.chosen).values ∧ s.Remain split.after split'.after := by
    -- What is not bound yet chooses from all subsets in either way.
    by_cases free : s.attributes.orderless = true → boundTo? b e.pattern = none
    · exact h.allSplits_remain arranges remain (splits_eq_allSplits free ▸ inSplits) presented
    · obtain ⟨orderless, bound⟩ := Classical.not_imp.mp free
      obtain ⟨inArgs, afterSub⟩ := args_of_mem_splits remain.sub inSplits
      -- What is bound was presented again, so that a subset of its width is presented like it.
      have exact := h.isExact_of_mem_presentations inArgs presented
      obtain ⟨isBound, arranged⟩ := boundTo?_eq_of_reaches (orderless ▸ ready) bound exact reached
      obtain ⟨one, run⟩ := width_of_reaches_bound (orderless ▸ ready) bound exact reached
      obtain ⟨split', inAll, presented', perm⟩ :=
        h.mem_allSplits arranges orderless remain arranged isBound one run inSplits presented
      refine ⟨arranged, split', inAll, presented', afterSub, ?_, ?_⟩
      · exact (args_of_mem_splits remain.sub' (allSplits_eq_splits .. ▸ inAll)).2
      · exact orderless ▸ perm.symm
  obtain ⟨arranged, split', inAll, presented', remainAfter⟩ := found
  have reached' := (ready.head rfl arranged γ).1.mp reached
  exact ⟨ready.tail rfl arranged reached, _, ⟨split', inAll, t, presented', reached', rfl⟩, remainAfter⟩

/-- What an element takes of all subsets, it takes by the shortcut too. -/
theorem Arranged.takes_splits (h : s.Arranged ev le) (arranges : ev.Arranges le)
    (ready : Ready ev le s.attributes.orderless (e.pattern :: ps) b) (remain : s.Remain items items')
    (takes : s.Takes allSplits (e.matchedBy (searchBy ev allSplits)) first last items' b γ after') :
    Ready ev le s.attributes.orderless ps γ ∧ ∃ after,
      s.Takes splits (e.matchedBy (searchBy ev splits)) first last items b γ after ∧
        s.Remain after after' := by
  obtain ⟨split, inAll, t, presented, reached, rfl⟩ := takes
  have found : t.ArrangedRun ev le ∧ ∃ split' ∈ (s.splits e.pattern first last items b).values,
      t ∈ (s.presentations e.pattern split'.chosen).values ∧ s.Remain split'.after split.after := by
    by_cases free : s.attributes.orderless = true → boundTo? b e.pattern = none
    · obtain ⟨arranged, split', inAll', presented', remainAfter⟩ :=
        h.allSplits_remain arranges remain.symm inAll presented
      exact ⟨arranged, split', splits_eq_allSplits free ▸ inAll', presented', remainAfter.symm⟩
    · obtain ⟨orderless, bound⟩ := Classical.not_imp.mp free
      obtain ⟨inArgs, afterSub⟩ := args_of_mem_splits remain.sub' (allSplits_eq_splits .. ▸ inAll)
      obtain ⟨isBound, arranged⟩ := boundTo?_eq_of_reaches (orderless ▸ ready) bound
        (h.isExact_of_mem_presentations inArgs presented) reached
      obtain ⟨split', inSplits, presented', perm⟩ :=
        h.mem_splits orderless remain isBound inAll presented
      have afterSub' := (args_of_mem_splits remain.sub inSplits).2
      exact ⟨arranged, split', inSplits, presented', afterSub', afterSub, orderless ▸ perm⟩
  obtain ⟨arranged, split', inSplits, presented', remainAfter⟩ := found
  have reached' := (ready.head rfl arranged γ).1.mpr reached
  exact ⟨ready.tail rfl arranged reached', _, ⟨split', inSplits, t, presented', reached', rfl⟩, remainAfter⟩

/-- Elements that are matched in turn reach the same bindings either way. The induction is on the
elements: what each leaves for the later ones is the same up to the order. -/
theorem Arranged.reaches_distributeBy (h : s.Arranged ev le) (arranges : ev.Arranges le)
    {places : List (Element Unit)} (ready : Ready ev le s.attributes.orderless (places.map (·.pattern)) b)
    (remain : s.Remain items items') :
    ReachAlike ev le
      (s.distributeBy splits first (places.map (Element.matchedBy (searchBy ev splits))) items b)
      (s.distributeBy allSplits first (places.map (Element.matchedBy (searchBy ev allSplits))) items' b) := by
  intro β
  induction places generalizing first items items' b with
  | nil =>
    have empty : items = [] ↔ items' = [] :=
      ⟨fun nil => (nil ▸ remain.order.perm).nil_eq.symm, fun nil => (nil ▸ remain.order.perm).eq_nil⟩
    simp only [List.map_nil, reaches_distributeBy_nil, empty, true_and]
    rintro ⟨-, rfl⟩
    exact ready.arranged
  | cons e later ih =>
    simp only [List.map_cons, reaches_distributeBy_cons, List.isEmpty_map]
    refine ⟨⟨?_, ?_⟩, ?_⟩
    · rintro ⟨γ, after, takes, reached⟩
      obtain ⟨readyLater, after', takes', remainAfter⟩ := h.takes_allSplits arranges ready remain takes
      exact ⟨γ, after', takes', (ih readyLater remainAfter).1.mp reached⟩
    · rintro ⟨γ, after', takes', reached⟩
      obtain ⟨readyLater, after, takes, remainAfter⟩ := h.takes_splits arranges ready remain takes'
      exact ⟨γ, after, takes, (ih readyLater remainAfter).1.mpr reached⟩
    · rintro ⟨γ, after, takes, reached⟩
      obtain ⟨readyLater, after', -, remainAfter⟩ := h.takes_allSplits arranges ready remain takes
      exact (ih readyLater remainAfter).2 reached

theorem Arranged.reaches_matchAllBy (h : s.Arranged ev le) (arranges : ev.Arranges le)
    (ready : Ready ev le s.attributes.orderless (Pattern.inTurn s.attributes.orderless ps) b) :
    ReachAlike ev le (s.matchAllBy splits (Pattern.elementsFromBy ev splits 1 ps) b)
      (s.matchAllBy allSplits (Pattern.elementsFromBy ev allSplits 1 ps) b) := by
  have whole (empty : Bool) : { s with whole := s.whole || empty } = s := by
    have := h.whole
    cases s
    simp_all
  simp only [matchAllBy, Pattern.elementsFromBy_eq_map, Element.inOrder_map, whole]
  exact h.reaches_distributeBy arranges ready ⟨.refl _, .refl _, .refl ..⟩

end Siblings

namespace Pattern

variable {ev : Evaluator} {le : Term → Term → Prop} {p : Pattern} {c : Context} {t : Term} {b β : Bindings}

theorem Ready.reaches_matchLone {free : Bool} {ps : List Pattern} (ready : Ready ev le free ps b)
    (arranged : t.ArrangedRun ev le) (head : Option Term) :
    ReachAlike ev le (matchLone head (elementsFromBy ev Siblings.splits 1 ps) t b)
      (matchLone head (elementsFromBy ev Siblings.allSplits 1 ps) t b) := by
  intro β
  cases head with
  | none => simp [matchLone]
  | some h =>
    simp only [matchLone, map_pattern_elementsFromBy]
    by_cases lone : standsAlone h ps t = true
    · simp only [lone, Bool.not_true, Bool.false_eq_true, if_false, Search.reaches_map_bindings,
        elementsFromBy_eq_map, Search.thread_map, List.length_map]
      have start : Ready ev le free ((places 1 ps).map (·.pattern)) b := by
        rwa [map_pattern_places]
      have arrangedPart (e : Element Unit) :
          Term.ArrangedRun ev le (if e.pattern.isOptional then .sequence [] else t) := by
        split
        · exact Term.arrangedRun_sequence (by simp) (by simp)
        · exact arranged
      refine (Search.mem_values_thread_iff (I := fun places b => Ready ev le free (places.map (·.pattern)) b)
        (fun e later b ready γ => ?_) start).imp_right fun keeps member => (keeps member).arranged
      simp only [Search.mem_values_bindings]
      exact ⟨(ready.head rfl (arrangedPart e) γ).1, ready.tail rfl (arrangedPart e)⟩
    · simp [lone]

theorem arranged_default? (arranges : ev.Arranges le) {inline : Option Term} {place : Option Place}
    (inlineArranged : ∀ v, inline = some v → v.ArrangedRun ev le) {v : Term}
    (found : v ∈ (defaultValue ev inline place).values) : v.ArrangedRun ev le := by
  cases eq : default? ev inline place with
  | none =>
    rw [defaultValue, eq] at found
    cases found
  | some u =>
    rw [defaultValue, eq] at found
    obtain rfl := List.mem_singleton.mp found
    cases inline with
    | some w => exact inlineArranged v eq
    | none =>
      obtain ⟨key, -, declared⟩ := List.exists_of_findSome?_eq_some eq
      exact arranges.defaults key v declared

theorem arranged_siblings (arranges : ev.Arranges le) {head : Pattern} {h : Term} {args : List Term}
    (arranged : Term.ArrangedRun ev le (.app h args))
    (reached : (searchBy ev Siblings.splits head {} h b).Reaches β) (count : Nat) :
    Siblings.Arranged ev le ⟨h, args, head.attributes ev, count, true⟩ := by
  obtain ⟨inHead, inArgs, sorted⟩ := arranged.app
  have named (flat : (head.attributes ev).flat = true) :
      ∃ name, h = .symbol name ∧ head.attributes ev = ev.attributes name := by
    cases head with
    | literal v =>
      cases v with
      | symbol name =>
        rw [searchBy, search, Search.reaches_ite] at reached
        exact ⟨name, ((Term.same_iff_eq rfl inHead.isExact).mp reached.1).symm, rfl⟩
      | _ => cases flat
    | _ => cases flat
  refine ⟨rfl, inArgs, inHead, named, fun flat orderless => ?_⟩
  obtain ⟨name, eq, attributes⟩ := named flat
  simp only [attributes] at flat orderless
  refine sorted name eq ?_ flat orderless
  rintro rfl
  simp [arranges.sequence flat] at orderless

theorem arranged_valueOf (arranges : ev.Arranges le) (regular : p.Regular ev le)
    (arranged : t.ArrangedRun ev le) {place : Option Place} {v : Term} (found : v ∈ (valueOf ev p place t).values) :
    v.ArrangedRun ev le := by
  unfold valueOf at found
  split at found
  · next inline eq =>
    split at found
    · exact arranged_default? arranges (fun v isInline => regular.arranged_default v (isInline ▸ eq)) found
    · exact List.mem_singleton.mp found ▸ arranged
  · exact List.mem_singleton.mp found ▸ arranged

theorem choicesAgree_named (arranges : ev.Arranges le) {x : String} {inner : Pattern}
    (h : (named x inner).Regular ev le) (agree : inner.ChoicesAgree ev le) :
    (named x inner).ChoicesAgree ev le := by
  intro c t b whole arranged inBindings unbound β
  obtain ⟨apart, regular⟩ : x ∉ inner.leftOut ev ∧ inner.Regular ev le := by
    cases h with
    | named _ apart regular => exact ⟨apart, regular⟩
  have bound := agree c t b whole arranged inBindings unbound β
  have unboundAfter (v : Term) (y : String) (named : y ∈ inner.leftOut ev) : (b.bind x v).get? y = none := by
    have other : y ≠ x := fun eq => apart (eq ▸ named)
    rw [Bindings.get?_bind, if_neg other]
    exact unbound y named
  have binding {v : Term} (found : v ∈ (valueOf ev inner c.place t).values) :=
    have value := arranged_valueOf arranges regular arranged found
    agree c t (b.bind x v) whole arranged (inBindings.bind x value) (unboundAfter v) β
  simp only [reaches_named]
  refine ⟨exists_congr fun v => and_congr_right fun found => ?_, ?_⟩
  · exact or_congr (exists_congr fun _ => and_congr_right fun _ => and_congr_right fun _ => bound.1)
      (and_congr_right fun _ => (binding found).1)
  · rintro ⟨v, found, ⟨_, -, -, reached⟩ | ⟨-, reached⟩⟩
    · exact bound.2 reached
    · exact (binding found).2 reached

theorem choicesAgree_optional (arranges : ev.Arranges le) {inner : Pattern} {inline : Option Term}
    (inlineArranged : ∀ v, inline = some v → v.ArrangedRun ev le) (agree : inner.ChoicesAgree ev le) :
    (optional inner inline).ChoicesAgree ev le := by
  intro c t b _ arranged inBindings unbound β
  have value {v : Term}
      (found : v ∈ (if t.isEmptySequence then defaultValue ev inline c.place else .one t).values) :
      v.ArrangedRun ev le := by
    split at found
    · exact arranged_default? arranges inlineArranged found
    · exact List.mem_singleton.mp found ▸ arranged
  have inner {v : Term} (found : v ∈ _) := agree {} v b rfl (value found) inBindings unbound β
  simp only [reaches_optional]
  refine ⟨exists_congr fun v => and_congr_right fun found => (inner found).1, ?_⟩
  rintro ⟨v, found, reached⟩
  exact (inner found).2 reached

/-- Nothing may be left out in what is repeated, so that no item has to look at the ones before it. -/
theorem choicesAgree_repeated {inner : Pattern} (required : inner.leftOut ev = [])
    (agree : inner.ChoicesAgree ev le) (least : Nat) (most : Option Nat) :
    (repeated inner least most).ChoicesAgree ev le := by
  intro c t b _ arranged inBindings _ β
  have each (item : Term) (items : List Term) (b : Bindings)
      (invariant : (∀ u ∈ item :: items, u.Arranged ev le) ∧ b.Arranged ev le) (γ : Bindings) :=
    agree {} item b rfl (invariant.1 item (by simp)).run invariant.2 (by simp [required]) γ
  have thread := Search.mem_values_thread_iff (β := β)
    (I := fun items b => (∀ u ∈ items, u.Arranged ev le) ∧ b.Arranged ev le)
    (f := fun b item => (searchBy ev Siblings.splits inner {} item b).map (·.bindings))
    (g := fun b item => (searchBy ev Siblings.allSplits inner {} item b).map (·.bindings))
    (fun item items b invariant γ => by
      simp only [Search.mem_values_bindings]
      exact (each item items b invariant γ).imp_right fun keeps reached =>
        ⟨fun u member => invariant.1 u (by simp [member]), keeps reached⟩)
    ⟨arranged.items, inBindings⟩
  simp only [reaches_repeated]
  exact ⟨and_congr_right fun _ => thread.1, fun reached => (thread.2 reached.2).2⟩

section

variable {head : Pattern} {elements : List Pattern}

/-- The elements of a regular pattern can be matched in the order in which they are. -/
theorem Regular.ready_inTurn (h : (Pattern.compound head elements).Regular ev le)
    (agree : ∀ p ∈ elements, p.ChoicesAgree ev le) (inBindings : b.Arranged ev le)
    (unbound : ∀ p ∈ elements, ∀ x ∈ p.leftOutAt ev (head.attributes ev).orderless, b.get? x = none) :
    Ready ev le (head.attributes ev).orderless (inTurn (head.attributes ev).orderless elements) b := by
  have inElements {p : Pattern} (member : p ∈ inTurn (head.attributes ev).orderless elements) :
      p ∈ elements := (inTurn_perm ..).subset member
  cases h with
  | compound _ regular sized _ spares _ =>
    refine ⟨fun p member => agree p (inElements member), fun orderless x inner member => ⟨?_, ?_⟩,
      fun p member => (regular p (inElements member)).unmarked_at (regular p (inElements member)).unmarked _,
      spares, inBindings, fun p member => unbound p (inElements member)⟩
    · cases regular _ (inElements member) with
      | named unmarked => exact unmarked
    · exact sized orderless x inner (inElements member)

/-- Under a head with one identity they can also be matched as they stand. -/
theorem Regular.ready_lone (h : (Pattern.compound head elements).Regular ev le)
    (identity : (head.attributes ev).oneIdentity = true) (agree : ∀ p ∈ elements, p.ChoicesAgree ev le)
    (inBindings : b.Arranged ev le) (unbound : ∀ p ∈ elements, ∀ x ∈ p.leftOut ev, b.get? x = none) :
    Ready ev le false elements b := by
  cases h with
  | compound _ regular _ _ _ sparesLone =>
    have unmarked (p : Pattern) (member : p ∈ elements) :=
      (regular p member).unmarked_at (regular p member).unmarked false
    exact ⟨agree, fun free => absurd free (by simp), unmarked, sparesLone identity, inBindings, unbound⟩

/-- What the pattern of the head binds, no element may leave out. -/
theorem Regular.unbound_of_reaches_head (h : (Pattern.compound head elements).Regular ev le)
    {t : Term} (reached : (searchBy ev Siblings.splits head {} t b).Reaches β) {p : Pattern}
    (member : p ∈ elements) {x : String} (named : x ∈ p.leftOutAt ev (head.attributes ev).orderless)
    (unbound : b.get? x = none) : β.get? x = none := by
  cases h with
  | compound _ regular _ spared _ _ =>
    have unmarked := (regular p member).unmarked_at (regular p member).unmarked _ x named
    rw [get?_of_reaches (spared p member x named) unmarked reached]
    exact unbound

theorem choicesAgree_compound (arranges : ev.Arranges le) (h : (compound head elements).Regular ev le)
    (headAgrees : head.ChoicesAgree ev le) (agree : ∀ p ∈ elements, p.ChoicesAgree ev le) :
    (compound head elements).ChoicesAgree ev le := by
  intro c t b whole arranged inBindings unbound β
  have unboundAt (p : Pattern) (member : p ∈ elements) (x : String)
      (named : x ∈ p.leftOutAt ev (head.attributes ev).orderless) : b.get? x = none :=
    unbound x (List.mem_append_right _ (mem_leftOutOfAll.mpr ⟨p, member, named⟩))
  have inHead {u : Term} {args : List Term} (eq : t = .app u args) (γ : Bindings) :=
    headAgrees {} u b rfl (eq ▸ arranged).app.1.run inBindings
      (fun x named => unbound x (List.mem_append_left _ named)) γ
  have application {u : Term} {args : List Term} {γ : Bindings} (eq : t = .app u args)
      (reached : (searchBy ev Siblings.splits head {} u b).Reaches γ) :=
    have ready := h.ready_inTurn agree ((inHead eq γ).2 reached) fun p member x named =>
      h.unbound_of_reaches_head reached member named (unboundAt p member x named)
    (arranged_siblings arranges (eq ▸ arranged) reached elements.length).reaches_matchAllBy arranges ready β
  have lone (identity : (head.attributes ev).oneIdentity = true) :=
    have ready := h.ready_lone identity agree inBindings fun p member x named =>
      unboundAt p member x (List.mem_append_right _ named)
    ready.reaches_matchLone arranged head.literal? β
  simp only [reaches_compound, whole, Bool.true_or]
  refine ⟨and_congr_right fun _ => or_congr ?_ (and_congr_right fun identity => (lone identity).1), ?_⟩
  · refine exists_congr fun u => exists_congr fun args => exists_congr fun γ => and_congr_right fun eq =>
      and_congr_right fun _ => ?_
    rw [← (inHead eq γ).1]
    exact and_congr_right fun reached => (application eq reached).1
  · rintro ⟨-, ⟨u, args, γ, eq, -, reachedHead, reached⟩ | ⟨identity, reached⟩⟩
    · exact (application eq reachedHead).2 reached
    · exact (lone identity).2 reached

end

/-- For regular patterns both ways to choose reach the same. The induction is on the pattern. -/
theorem Regular.choicesAgree (arranges : ev.Arranges le) (h : p.Regular ev le) : p.ChoicesAgree ev le := by
  induction h with
  | wildcard span head =>
    intro c t b _ _ inBindings _ β
    refine ⟨Iff.rfl, fun reached => ?_⟩
    cases span <;>
      · rw [searchBy, search, Search.reaches_ite, Search.reaches_one] at reached
        exact reached.2 ▸ inBindings
  | verbatim v | literal v =>
    intro c t b _ _ inBindings _ β
    refine ⟨Iff.rfl, fun reached => ?_⟩
    rw [searchBy, search, Search.reaches_ite, Search.reaches_one] at reached
    exact reached.2 ▸ inBindings
  | options cell defaults =>
    intro c t b _ _ inBindings _ β
    refine ⟨Iff.rfl, fun reached => ?_⟩
    rw [searchBy, search, Search.reaches_bind] at reached
    obtain ⟨options, -, reached⟩ := reached
    split at reached
    · obtain rfl := (Search.reaches_one _).mp reached
      exact inBindings.bindOptions _
    · exact absurd reached (by simp)
  | hold _ ih => exact ih
  | alternatives _ ih =>
    intro c t b whole arranged inBindings unbound β
    have each {p : Pattern} (member : p ∈ _) := ih p member c t b whole arranged inBindings
      (fun x named => unbound x (mem_leftOutOfAll.mpr ⟨p, member, List.mem_append_right _ named⟩)) β
    simp only [reaches_alternatives]
    refine ⟨exists_congr fun p => and_congr_right fun member => (each member).1, ?_⟩
    rintro ⟨p, member, reached⟩
    exact (each member).2 reached
  | except _ _ excluded_ih ih =>
    intro c t b whole arranged inBindings unbound β
    have excluded := excluded_ih c t b whole arranged inBindings
      fun x named => unbound x (List.mem_append_left _ named)
    have fallback := ih c t b whole arranged inBindings
      (fun x named => unbound x (List.mem_append_right _ named)) β
    simp only [reaches_except]
    exact ⟨and_congr (not_congr (exists_congr fun γ => (excluded γ).1)) fallback.1,
      fun reached => fallback.2 reached.2⟩
  | test predicate _ ih =>
    intro c t b _ arranged inBindings unbound β
    have inner := ih { c with whole := true } t b rfl arranged inBindings unbound β
    simp only [reaches_test]
    exact ⟨and_congr_left' inner.1, fun reached => inner.2 reached.1⟩
  | condition guard _ ih =>
    intro c t b whole arranged inBindings unbound β
    have inner := ih c t b whole arranged inBindings unbound β
    simp only [reaches_condition]
    exact ⟨and_congr_left' inner.1, fun reached => inner.2 reached.1⟩
  | optional inlineArranged _ ih => exact choicesAgree_optional arranges inlineArranged ih
  | named unmarked apart regular ih => exact choicesAgree_named arranges (.named unmarked apart regular) ih
  | repeated least most required _ ih => exact choicesAgree_repeated required ih least most
  | compound regular elements sized spared spares lone head_ih ih =>
    exact choicesAgree_compound arranges (.compound regular elements sized spared spares lone) head_ih ih

end Pattern

end TermRewriting
