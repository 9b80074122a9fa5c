import TermRewriting.Proofs.Matching.Regular
import TermRewriting.Proofs.Matching.Reordered

/-! Choosing without regard to what is bound. Where order does not count, a variable that is bound
already takes what it is bound to straight from the arguments that are left. Of arranged arguments
it can take the same if it tries all subsets of them. -/

namespace TermRewriting

namespace Siblings

/-- Choices that do not depend on what is bound: where order does not count, all subsets. -/
def allSplits : Chooser := fun s p first last items _ =>
  if (items.filter (s.fits p)).length < p.width.least then .done
  else if !s.attributes.orderless then
    Search.runs items p.width.least (s.most p) (first && !s.whole) (!last)
  else Search.subsets (s.fits p) items p.width.least (s.most p) (!last)

variable {s : Siblings} {p : Pattern} {first last : Bool} {items items' : List Term} {b : Bindings}

/-- Only where order does not count does it matter that a variable is bound. -/
theorem splits_eq_allSplits (free : s.attributes.orderless = true → boundTo? b p = none) :
    s.splits p first last items b = allSplits s p first last items b := by
  unfold splits allSplits
  cases orderless : s.attributes.orderless with
  | false => rfl
  | true => rw [free orderless]

theorem mem_splits_bound (orderless : s.attributes.orderless = true) {v : Term}
    (bound : boundTo? b p = some v) {split : Split Term} :
    split ∈ (s.splits p first last items b).values ↔
      p.width.least ≤ (items.filter (s.fits p)).length ∧
        take? (fun want t => t.same want && s.fits p t) (s.needed v) items = some split := by
  unfold splits
  dsimp only
  by_cases few : (items.filter (s.fits p)).length < p.width.least
  · rw [if_pos few]
    exact iff_of_false (by simp) fun both => absurd few (Nat.not_lt.mpr both.1)
  · rw [if_neg few]
    simp only [orderless, Bool.not_true, Bool.false_eq_true, if_false, bound, Search.values_ofOption,
      Option.mem_toList, Nat.not_lt.mp few, true_and]

theorem mem_allSplits (orderless : s.attributes.orderless = true) {split : Split Term} :
    split ∈ (allSplits s p first last items b).values ↔
      p.width.least ≤ (items.filter (s.fits p)).length ∧
        ∃ size chosen rest, size ∈ Search.sizes items.length p.width.least (s.most p) (!last) ∧
          (chosen, rest) ∈ (Search.choose (s.fits p) items size).values ∧ split = ⟨[], chosen, rest⟩ := by
  unfold allSplits
  by_cases few : (items.filter (s.fits p)).length < p.width.least
  · rw [if_pos few]
    exact iff_of_false (by simp) fun both => absurd few (Nat.not_lt.mpr both.1)
  · rw [if_neg few]
    simp only [orderless, Bool.not_true, Bool.false_eq_true, if_false, Search.mem_subsets,
      Nat.not_lt.mp few, true_and]

theorem does_of_take? {does : Term → Term → Bool} {wanted : List Term} {split : Split Term}
    (taken : take? does wanted items = some split) :
    ∀ t ∈ split.chosen, ∃ want ∈ wanted, does want t = true := by
  induction wanted generalizing items split with
  | nil =>
    obtain rfl := Option.some.inj taken
    simp
  | cons want wanted ih =>
    rw [take?_cons_eq_some_iff] at taken
    obtain ⟨x, rest, pulled, later, taken, rfl⟩ := taken
    intro t member
    rcases List.mem_cons.mp member with rfl | member
    · exact ⟨want, by simp, (perm_of_pull? pulled).1⟩
    · obtain ⟨other, wanted, does⟩ := ih taken t member
      exact ⟨other, by simp [wanted], does⟩

end Siblings

/-- The order on terms tells different terms apart, sequences are not flat and without order at once,
and the default values that are declared are arranged. -/
structure Evaluator.Arranges (ev : Evaluator) (le : Term → Term → Prop) : Prop where
  antisymm : ∀ t u, le t u → le u t → t = u
  sequence : (ev.attributes "Sequence").flat = true → (ev.attributes "Sequence").orderless = false
  defaults : ∀ key v, ev.defaultValue key = some v → v.ArrangedRun ev le

theorem Evaluator.Arranges.eq_of_perm {ev : Evaluator} {le : Term → Term → Prop} (arranges : ev.Arranges le)
    {xs ys : List Term} (hx : xs.Pairwise le) (hy : ys.Pairwise le) (perm : xs.Perm ys) : xs = ys :=
  List.Perm.eq_of_pairwise (fun t u _ _ => arranges.antisymm t u) hx hy perm

namespace Siblings

/-- The application whose arguments are distributed is arranged, and is to be matched as a whole. Only
the attributes of its head count. -/
structure Arranged (ev : Evaluator) (le : Term → Term → Prop) (s : Siblings) : Prop where
  whole : s.whole = true
  args : ∀ t ∈ s.args, t.Arranged ev le
  head : s.head.Arranged ev le
  named : s.attributes.flat = true → ∃ name, s.head = .symbol name ∧ s.attributes = ev.attributes name
  sorted : s.attributes.flat = true → s.attributes.orderless = true →
    s.args.Pairwise le ∧ ∀ t ∈ s.args, t.isHeadedBy s.head = false

/-- What is left of the arguments after the same elements, in two ways to choose. -/
structure Remain (s : Siblings) (items items' : List Term) : Prop where
  sub : items.Sublist s.args
  sub' : items'.Sublist s.args
  order : Rearranged s.attributes.orderless items items'

variable {ev : Evaluator} {le : Term → Term → Prop} {s : Siblings} {p : Pattern} {first last : Bool}
  {items items' : List Term} {b : Bindings}

theorem Remain.symm (h : s.Remain items items') : s.Remain items' items := ⟨h.sub', h.sub, h.order.symm⟩

theorem Remain.eq (remain : s.Remain items items') (h : s.Arranged ev le) (arranges : ev.Arranges le)
    (kind : s.attributes.orderless = true → s.attributes.flat = true) : items = items' := by
  have order := remain.order
  cases orderless : s.attributes.orderless with
  | false =>
    rw [orderless] at order
    exact order
  | true =>
    have sorted := (h.sorted (kind orderless) orderless).1
    exact arranges.eq_of_perm (sorted.sublist remain.sub) (sorted.sublist remain.sub') order.perm

theorem Arranged.not_sequence (h : s.Arranged ev le) (arranges : ev.Arranges le)
    (flat : s.attributes.flat = true) (orderless : s.attributes.orderless = true) :
    s.head.isSymbol "Sequence" = false := by
  obtain ⟨name, head, attributes⟩ := h.named flat
  rw [attributes] at flat orderless
  rw [head]
  have other : name ≠ "Sequence" := by
    rintro rfl
    simp [arranges.sequence flat] at orderless
  simpa [Term.isSymbol, Term.symbol?] using other

/-- What is presented of arranged arguments is arranged, if they are presented in order. -/
theorem Arranged.presented (h : s.Arranged ev le) {chosen : List Term}
    (inArgs : ∀ u ∈ chosen, u ∈ s.args)
    (sub : s.attributes.flat = true → s.attributes.orderless = true → chosen.Sublist s.args) {t : Term}
    (found : t ∈ (s.presentations p chosen).values) : t.ArrangedRun ev le := by
  have arranged (u : Term) (member : u ∈ chosen) : u.Arranged ev le := h.args u (inArgs u member)
  by_cases alone : chosen.length = 1
  · obtain ⟨u, rfl⟩ := List.length_eq_one_iff.mp alone
    obtain rfl := List.mem_singleton.mp found
    exact (arranged t (by simp)).run
  rcases perm_of_mem_presentations found with ⟨run, order, rfl⟩ | ⟨flattens, rfl⟩
  · exact ⟨run, fun u member => arranged u (order.perm.subset member), rfl⟩
  · have flat : s.attributes.flat = true := (Bool.and_eq_true_iff.mp flattens).1
    obtain ⟨name, head, attributes⟩ := h.named flat
    by_cases sequence : name = "Sequence"
    · rw [head, sequence]
      exact Term.arrangedRun_sequence alone arranged
    · refine Term.Arranged.run (.app ?_ h.head arranged fun other eq isFlat isOrderless => ?_)
      · simpa [head, Term.isSymbol, Term.symbol?] using sequence
      · obtain rfl : name = other := Term.symbol.inj (head.symm.trans eq)
        have orderless : s.attributes.orderless = true := attributes ▸ isOrderless
        have sorted := h.sorted flat orderless
        exact ⟨sorted.1.sublist (sub flat orderless), fun u member => sorted.2 u (inArgs u member)⟩

theorem Arranged.isExact_of_mem_presentations (h : s.Arranged ev le) {chosen : List Term}
    (inArgs : ∀ u ∈ chosen, u ∈ s.args) {t : Term} (found : t ∈ (s.presentations p chosen).values) :
    t.isExact = true := by
  have exact (u : Term) (member : u ∈ chosen) : u.isExact = true := (h.args u (inArgs u member)).isExact
  rcases perm_of_mem_presentations found with ⟨run, order, rfl⟩ | ⟨-, rfl⟩
  · exact Term.isExact_ofRun fun u member => exact u (order.perm.subset member)
  · exact Term.isExact_app.mpr ⟨h.head.isExact, exact⟩

/-- What stands for some of the arguments is wanted as just these arguments. -/
theorem Arranged.needed (h : s.Arranged ev le) (orderless : s.attributes.orderless = true)
    {chosen : List Term} (inArgs : ∀ u ∈ chosen, u ∈ s.args) {v : Term}
    (presented : v ∈ (s.presentations p chosen).values) :
    (s.needed v).Perm chosen ∧ v ∈ (s.presentations p (s.needed v)).values := by
  rcases (mem_presentations_orderless orderless).mp presented with
    rfl | ⟨several, ⟨run, perm, room, rfl⟩ | ⟨flattens, rfl⟩⟩
  · have member := inArgs v (by simp)
    have notHeaded : (s.attributes.flat && v.isHeadedBy s.head) = false := by
      cases flat : s.attributes.flat with
      | false => rfl
      | true => exact (h.sorted flat orderless).2 v member
    have needed : s.needed v = [v] := by
      simp [Siblings.needed, (h.args v member).isSequence, notHeaded]
    rw [needed]
    exact ⟨.refl _, presented⟩
  · have needed : s.needed (.sequence run) = run := by
      rw [Siblings.needed, Term.isSequence_sequence, Bool.true_or, if_pos rfl]
      rfl
    rw [needed]
    rw [← perm.length_eq] at several room
    exact ⟨perm, (mem_presentations_orderless orderless).mpr (.inr ⟨several, .inl ⟨run, .refl _, room, rfl⟩⟩)⟩
  · have flat : s.attributes.flat = true := by
      simp only [Siblings.flattens, Bool.and_eq_true] at flattens
      exact flattens.1.1.1
    have headed : (Term.app s.head chosen).isHeadedBy s.head = true :=
      (Term.beq_iff_eq_of_isExact h.head.isExact _).mpr rfl
    have needed : s.needed (.app s.head chosen) = chosen := by simp [Siblings.needed, flat, headed, Term.args]
    rw [needed]
    exact ⟨.refl _, presented⟩

/-- What a bound variable takes of all subsets, it takes by the shortcut. -/
theorem Arranged.mem_splits (h : s.Arranged ev le) (orderless : s.attributes.orderless = true)
    (remain : s.Remain items items') {v : Term} (bound : boundTo? b p = some v) {split : Split Term}
    (found : split ∈ (allSplits s p first last items' b).values)
    (presented : v ∈ (s.presentations p split.chosen).values) :
    ∃ split' ∈ (s.splits p first last items b).values,
      v ∈ (s.presentations p split'.chosen).values ∧ split'.after.Perm split.after := by
  obtain ⟨enough, size, chosen, rest, -, inChoose, rfl⟩ := (mem_allSplits orderless).mp found
  obtain ⟨perm, -, -⟩ := Search.perm_of_mem_choose inChoose
  obtain ⟨sub, fits⟩ := Search.sublist_of_mem_choose inChoose
  have inArgs (u : Term) (member : u ∈ chosen) : u ∈ s.args := remain.sub'.subset (sub.subset member)
  obtain ⟨permNeeded, presentedNeeded⟩ := h.needed orderless inArgs presented
  have only (want : Term) (wanted : want ∈ s.needed v) (t : Term) (member : t ∈ items) :
      (t.same want && s.fits p t) = true ↔ t = want := by
    have inChosen := permNeeded.subset wanted
    rw [Bool.and_eq_true, Term.same_iff_eq (h.args t (remain.sub.subset member)).isExact
      (h.args want (inArgs want inChosen)).isExact]
    exact ⟨And.left, fun eq => ⟨eq, eq ▸ fits want inChosen⟩⟩
  have permItems : (s.needed v ++ rest).Perm items :=
    ((permNeeded.append_right rest).trans perm).trans remain.order.perm.symm
  obtain ⟨after, taken, permAfter⟩ := take?_of_perm only permItems
  rw [← (remain.order.perm.filter (s.fits p)).length_eq] at enough
  exact ⟨_, (mem_splits_bound orderless bound).mpr ⟨enough, taken⟩, presentedNeeded, permAfter⟩

/-- What stands for some of the arguments stands for them in the order in which they are there, and
says how many they are. -/
theorem Arranged.presented_sub (h : s.Arranged ev le) (arranges : ev.Arranges le)
    (orderless : s.attributes.orderless = true) {chosen chosen' : List Term}
    (inArgs : ∀ u ∈ chosen, u ∈ s.args) (sub : chosen'.Sublist s.args) (perm : chosen'.Perm chosen)
    (wild : p.isWildcard = true) {v : Term} (arranged : v.ArrangedRun ev le)
    (one : v.isSequence = false → p.width.admits 1 = true)
    (run : ∀ ts, v = .sequence ts → p.width.least ≤ ts.length)
    (presented : v ∈ (s.presentations p chosen).values) :
    p.width.least ≤ chosen.length ∧ (s.most p).all (chosen.length ≤ ·) = true ∧
      v ∈ (s.presentations p chosen').values := by
  have most (n : Nat) (within : s.attributes.flat = false → p.width.most.all (n ≤ ·) = true) :
      (s.most p).all (n ≤ ·) = true := by
    cases flat : s.attributes.flat with
    | true => simp [Siblings.most, flat, wild]
    | false => simpa [Siblings.most, flat] using within flat
  rcases (mem_presentations_orderless orderless).mp presented with
    rfl | ⟨several, ⟨ts, permRun, room, rfl⟩ | ⟨flattens, rfl⟩⟩
  · have admits := Width.admits_iff.mp (one (h.args v (inArgs v (by simp))).isSequence)
    obtain rfl := List.perm_singleton.mp perm
    exact ⟨admits.1, most 1 fun _ => admits.2, presented⟩
  · refine ⟨permRun.length_eq ▸ run ts rfl, most _ fun _ => room, ?_⟩
    rw [← perm.length_eq] at several room
    exact (mem_presentations_orderless orderless).mpr
      (.inr ⟨several, .inl ⟨ts, permRun.trans perm.symm, room, rfl⟩⟩)
  · have flat : s.attributes.flat = true := by
      simp only [Siblings.flattens, Bool.and_eq_true] at flattens
      exact flattens.1.1.1
    have notSequence := h.not_sequence arranges flat orderless
    obtain ⟨name, head, attributes⟩ := h.named flat
    have sorted : chosen.Pairwise le := by
      refine (arranged.app.2.2 name head ?_ (attributes ▸ flat) (attributes ▸ orderless)).1
      rintro rfl
      simp [head, Term.isSymbol, Term.symbol?] at notSequence
    obtain rfl := arranges.eq_of_perm ((h.sorted flat orderless).1.sublist sub) sorted perm
    have admits := Width.admits_iff.mp (one notSequence)
    have nonempty : chosen'.length ≠ 0 := by
      simp only [Bool.and_eq_true, Bool.not_eq_true', List.isEmpty_eq_false_iff] at flattens
      exact fun zero => flattens.1.2 (List.length_eq_zero_iff.mp zero)
    refine ⟨by omega, most _ fun notFlat => ?_, presented⟩
    simp [flat] at notFlat

/-- What a bound variable takes by the shortcut is among all subsets, if the width of the element
allows for what it is bound to. -/
theorem Arranged.mem_allSplits (h : s.Arranged ev le) (arranges : ev.Arranges le)
    (orderless : s.attributes.orderless = true) (remain : s.Remain items items') {v : Term}
    (arranged : v.ArrangedRun ev le) (bound : boundTo? b p = some v)
    (one : v.isSequence = false → p.width.admits 1 = true)
    (run : ∀ ts, v = .sequence ts → p.width.least ≤ ts.length) {split : Split Term}
    (found : split ∈ (s.splits p first last items b).values)
    (presented : v ∈ (s.presentations p split.chosen).values) :
    ∃ split' ∈ (allSplits s p first last items' b).values,
      v ∈ (s.presentations p split'.chosen).values ∧ split'.after.Perm split.after := by
  obtain ⟨enough, taken⟩ := (mem_splits_bound orderless bound).mp found
  obtain ⟨perm, -⟩ := perm_of_take? taken
  have inArgs (u : Term) (member : u ∈ split.chosen) : u ∈ s.args :=
    remain.sub.subset (perm.subset (List.mem_append_left _ member))
  have fits (u : Term) (member : u ∈ split.chosen) : s.fits p u = true := by
    obtain ⟨want, -, does⟩ := does_of_take? taken u member
    exact (Bool.and_eq_true_iff.mp does).2
  obtain ⟨chosen, rest, inChoose, permChosen, permRest⟩ :=
    Search.mem_choose_of_perm (perm.trans remain.order.perm) fits
  have wild : p.isWildcard = true := by
    cases p with
    | named x inner => rfl
    | _ => cases bound
  have sub : chosen.Sublist s.args := (Search.sublist_of_mem_choose inChoose).1.trans remain.sub'
  obtain ⟨least, most, presented'⟩ :=
    h.presented_sub arranges orderless inArgs sub permChosen wild arranged one run presented
  refine ⟨⟨[], chosen, rest⟩, (Siblings.mem_allSplits orderless).mpr ⟨?_, _, _, _, ?_, inChoose, rfl⟩,
    presented', permRest⟩
  · rwa [← (remain.order.perm.filter (s.fits p)).length_eq]
  · refine Search.mem_sizes.mpr ⟨least, Search.le_largest.mpr ⟨?_, most⟩⟩
    have := (perm.trans remain.order.perm).length_eq
    rw [List.length_append] at this
    omega

theorem args_of_mem_splits (sub : items.Sublist s.args) {split : Split Term}
    (found : split ∈ (s.splits p first last items b).values) :
    (∀ u ∈ split.chosen, u ∈ s.args) ∧ split.after.Sublist s.args := by
  obtain ⟨order, left⟩ := rearranged_of_mem_splits found
  refine ⟨fun u member => sub.subset (order.perm.subset ?_), ?_⟩
  · exact List.mem_append_left _ (List.mem_append_right _ member)
  · exact ((List.sublist_append_right ..).trans left).trans sub

theorem allSplits_eq_splits (s : Siblings) (p : Pattern) (first last : Bool) (items : List Term)
    (b : Bindings) : allSplits s p first last items b = s.splits p first last items .empty := by
  refine (splits_eq_allSplits (b := .empty) fun _ => ?_).symm
  cases p <;> rfl

/-- The same is presented of what is left in either way, if variables that are bound are not looked at. -/
theorem Arranged.allSplits_remain (h : s.Arranged ev le) (arranges : ev.Arranges le)
    (remain : s.Remain items items') {split : Split Term}
    (found : split ∈ (allSplits s p first last items b).values) {t : Term}
    (presented : t ∈ (s.presentations p split.chosen).values) :
    t.ArrangedRun ev le ∧ ∃ split' ∈ (allSplits s p first last items' b).values,
      t ∈ (s.presentations p split'.chosen).values ∧ s.Remain split.after split'.after := by
  have inSplits := found
  rw [allSplits_eq_splits] at inSplits
  obtain ⟨inArgs, afterSub⟩ := args_of_mem_splits remain.sub inSplits
  refine ⟨h.presented inArgs (fun _ orderless => ?_) presented, ?_⟩
  · obtain ⟨-, size, chosen, rest, -, inChoose, rfl⟩ := (Siblings.mem_allSplits orderless).mp found
    exact (Search.sublist_of_mem_choose inChoose).1.trans remain.sub
  by_cases kind : s.attributes.orderless = true → s.attributes.flat = true
  · obtain rfl := remain.eq h arranges kind
    exact ⟨split, found, presented, afterSub, afterSub, .refl ..⟩
  · obtain ⟨orderless, flat⟩ := Classical.not_imp.mp kind
    rw [Bool.not_eq_true] at flat
    have exact (u : Term) (member : u ∈ items) : u.isExact = true :=
      (h.args u (remain.sub.subset member)).isExact
    obtain ⟨split', inSplits', permChosen, permAfter⟩ :=
      mem_splits_perm orderless remain.order.perm exact inSplits
    refine ⟨split', (allSplits_eq_splits ..).symm ▸ inSplits', ?_, afterSub,
      (args_of_mem_splits remain.sub' inSplits').2, ?_⟩
    · exact mem_presentations_perm orderless flat s.args permChosen presented
    · rw [orderless]
      exact permAfter.symm

end Siblings

end TermRewriting
