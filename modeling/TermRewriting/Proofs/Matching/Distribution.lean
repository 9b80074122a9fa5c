import TermRewriting.Proofs.Matching.Fits
import TermRewriting.Proofs.Matching.Visit
import TermRewriting.Proofs.Search.Enumeration

/-! What an element may take of the arguments. Every choice splits the arguments up without losing
one, every presentation stands for the arguments chosen, and every run of arguments that fits the
element is among the choices. -/

namespace TermRewriting

variable {α : Type}

def Rearranged (free : Bool) (xs ys : List α) : Prop := if free then xs.Perm ys else xs = ys

namespace Rearranged

variable {free : Bool} {xs ys zs ws : List α}

theorem refl (free : Bool) (xs : List α) : Rearranged free xs xs := by
  cases free with
  | false => exact Eq.refl xs
  | true => exact List.Perm.refl xs

theorem perm (h : Rearranged free xs ys) : xs.Perm ys := by
  cases free with
  | false => exact .of_eq h
  | true => exact h

theorem symm (h : Rearranged free xs ys) : Rearranged free ys xs := by
  cases free with
  | false => exact Eq.symm h
  | true => exact List.Perm.symm h

theorem trans (h : Rearranged free xs ys) (h' : Rearranged free ys zs) : Rearranged free xs zs := by
  cases free with
  | false => exact Eq.trans h h'
  | true => exact List.Perm.trans h h'

theorem append (h : Rearranged free xs ys) (h' : Rearranged free zs ws) :
    Rearranged free (xs ++ zs) (ys ++ ws) := by
  cases free with
  | false => exact congrArg₂ (· ++ ·) h h'
  | true => exact List.Perm.append h h'

theorem map {β : Type} (h : Rearranged free xs ys) (f : α → β) :
    Rearranged free (xs.map f) (ys.map f) := by
  cases free with
  | false => exact congrArg (List.map f) h
  | true => exact List.Perm.map f h

theorem flatMap {β : Type} (h : Rearranged free xs ys) (f : α → List β) :
    Rearranged free (xs.flatMap f) (ys.flatMap f) := by
  cases free with
  | false => exact congrArg (List.flatMap f) h
  | true => exact List.Perm.flatMap_right f h

end Rearranged

namespace Siblings

theorem sublist_of_pull? {holds : α → Bool} {xs rest : List α} {x : α}
    (h : pull? holds xs = some (x, rest)) : rest.Sublist xs := by
  obtain ⟨-, earlier, later, rfl, rfl, -⟩ := pull?_eq_some_iff.mp h
  exact (List.sublist_cons_self x later).append_left earlier

theorem pull?_of_mem {holds : α → Bool} {xs : List α} {x : α}
    (only : ∀ y ∈ xs, holds y = true ↔ y = x) (member : x ∈ xs) :
    ∃ rest, pull? holds xs = some (x, rest) := by
  obtain ⟨earlier, later, rfl, first⟩ := List.eq_append_cons_of_mem member
  refine ⟨earlier ++ later, pull?_eq_some_iff.mpr
    ⟨(only x member).mpr rfl, earlier, later, rfl, rfl, fun y inEarlier => ?_⟩⟩
  have other : y ≠ x := fun eq => first (eq ▸ inEarlier)
  exact Bool.eq_false_iff.mpr (mt (only y (by simp [inEarlier])).mp other)

theorem perm_of_take? {does : Term → α → Bool} {wanted : List Term} {xs : List α} {split : Split α}
    (h : take? does wanted xs = some split) :
    (split.chosen ++ split.after).Perm xs ∧ split.after.Sublist xs := by
  induction wanted generalizing xs split with
  | nil =>
    obtain rfl := Option.some.inj h
    exact ⟨.refl _, .refl _⟩
  | cons want wanted ih =>
    obtain ⟨x, rest, pulled, later, taken, rfl⟩ := take?_cons_eq_some_iff.mp h
    obtain ⟨perm, sub⟩ := ih taken
    exact ⟨(perm.cons x).trans (perm_of_pull? pulled).2, sub.trans (sublist_of_pull? pulled)⟩

theorem take?_of_perm {does : Term → Term → Bool} {wanted later items : List Term}
    (only : ∀ want ∈ wanted, ∀ t ∈ items, does want t = true ↔ t = want)
    (perm : (wanted ++ later).Perm items) :
    ∃ after, take? does wanted items = some ⟨[], wanted, after⟩ ∧ after.Perm later := by
  induction wanted generalizing items with
  | nil => exact ⟨items, rfl, perm.symm⟩
  | cons want wanted ih =>
    obtain ⟨rest, pulled⟩ := pull?_of_mem (only want (by simp)) (perm.subset (by simp))
    have fewer : (want :: rest).Perm items := (perm_of_pull? pulled).2
    have inItems {t : Term} (member : t ∈ rest) : t ∈ items := fewer.subset (by simp [member])
    obtain ⟨after, taken, permAfter⟩ :=
      ih (fun w member t inRest => only w (by simp [member]) t (inItems inRest))
        (perm.trans fewer.symm).cons_inv
    exact ⟨after, by simp [take?, pulled, taken], permAfter⟩

variable {s : Siblings} {p : Pattern} {first last : Bool} {items : List Term} {b : Bindings}

/-- A choice takes some arguments and leaves the others, in order unless order does not count. What
it leaves keeps its order in any case. -/
theorem rearranged_of_mem_splits {split : Split Term}
    (h : split ∈ (s.splits p first last items b).values) :
    Rearranged s.attributes.orderless (split.before ++ split.chosen ++ split.after) items ∧
      (split.before ++ split.after).Sublist items := by
  unfold splits at h
  dsimp only at h
  split at h
  · simp at h
  by_cases orderless : s.attributes.orderless = true
  · rw [orderless] at h ⊢
    cases bound : boundTo? b p with
    | none =>
      simp only [bound, Bool.not_true, Bool.false_eq_true, if_false, Search.mem_subsets] at h
      obtain ⟨size, chosen, rest, -, found, rfl⟩ := h
      obtain ⟨perm, -, sub⟩ := Search.perm_of_mem_choose found
      exact ⟨perm, sub⟩
    | some value =>
      simp only [bound, Bool.not_true, Bool.false_eq_true, if_false, Search.values_ofOption,
        Option.mem_toList] at h
      obtain ⟨perm, sub⟩ := perm_of_take? h
      rw [before_of_take? h]
      exact ⟨perm, sub⟩
  · rw [Bool.not_eq_true] at orderless
    rw [orderless] at h ⊢
    have eq := Search.append_of_mem_runs h
    refine ⟨eq, ?_⟩
    rw [← eq]
    exact (List.sublist_append_left ..).append (.refl _)

theorem before_of_mem_splits {split : Split Term} (h : split ∈ (s.splits p first last items b).values)
    (start : (first && !s.whole) = false) : split.before = [] := by
  unfold splits at h
  dsimp only at h
  split at h
  · simp at h
  split at h
  · rw [start] at h
    exact Search.before_of_mem_runs h
  cases bound : boundTo? b p with
  | none =>
    simp only [bound, Search.mem_subsets] at h
    obtain ⟨size, chosen, rest, -, -, rfl⟩ := h
    rfl
  | some value =>
    simp only [bound, Search.values_ofOption, Option.mem_toList] at h
    exact before_of_take? h

theorem perm_of_mem_presentations {chosen : List Term} {t : Term}
    (h : t ∈ (s.presentations p chosen).values) :
    (∃ run, Rearranged s.attributes.orderless run chosen ∧ t = .ofRun run) ∨
      s.flattens p = true ∧ t = .app s.head chosen := by
  by_cases alone : chosen.length = 1
  · obtain ⟨u, rfl⟩ := List.length_eq_one_iff.mp alone
    obtain rfl := List.mem_singleton.mp h
    exact .inl ⟨[t], .refl .., rfl⟩
  rw [presentations_of_length_ne_one _ _ alone] at h
  rcases List.mem_append.mp (Search.values_append .. ▸ h) with sequence | application
  · left
    split at sequence
    · rw [Search.values_map, Search.values_ite] at sequence
      obtain ⟨run, member, rfl⟩ := List.mem_map.mp sequence
      have order : Rearranged s.attributes.orderless run chosen := by
        by_cases orderless : s.attributes.orderless = true
        · rw [if_pos orderless] at member
          exact orderless ▸ Search.mem_permutations.mp member
        · rw [if_neg orderless] at member
          rw [Bool.not_eq_true] at orderless
          exact orderless ▸ List.mem_singleton.mp member
      exact ⟨run, order, (Term.ofRun_of_length_ne_one (order.perm.length_eq ▸ alone)).symm⟩
    · simp at sequence
  · right
    split at application
    · next flattens =>
      simp only [Bool.and_eq_true] at flattens
      exact ⟨flattens.1.1, List.mem_singleton.mp application⟩
    · simp at application

/-- A run of the permitted size is presented, whatever the order in which it was chosen. -/
theorem mem_presentations {run chosen : List Term}
    (order : Rearranged s.attributes.orderless run chosen)
    (admits : p.width.admits run.length = true) :
    .ofRun run ∈ (s.presentations p chosen).values := by
  have length : chosen.length = run.length := order.perm.length_eq.symm
  by_cases alone : chosen.length = 1
  · obtain ⟨u, rfl⟩ := List.length_eq_one_iff.mp alone
    obtain rfl := List.perm_singleton.mp order.perm
    exact List.mem_singleton_self _
  rw [presentations_of_length_ne_one _ _ alone, Search.values_append]
  apply List.mem_append_left
  rw [if_pos (length ▸ (Width.admits_iff.mp admits).2), Search.values_map, Search.values_ite]
  refine List.mem_map.mpr ⟨run, ?_, (Term.ofRun_of_length_ne_one (length ▸ alone)).symm⟩
  by_cases orderless : s.attributes.orderless = true
  · rw [if_pos orderless]
    exact Search.mem_permutations.mpr order.perm
  · rw [if_neg orderless]
    rw [Bool.not_eq_true] at orderless
    rw [orderless] at order
    exact List.mem_singleton.mpr order

/-- A run of fitting arguments of the permitted size is chosen, in some order. If the element is a
variable, it is enough that it is not bound to anything else. -/
theorem mem_splits {run later : List Term} (first last : Bool) (flat : s.attributes.flat = false)
    (order : Rearranged s.attributes.orderless (run ++ later) items)
    (fits : ∀ t ∈ run, p.mayMatch t = true) (admits : p.width.admits run.length = true)
    (bound : ∀ v, boundTo? b p = some v → v = .ofRun run) (plain : ∀ t ∈ items, t.isPlain = true) :
    ∃ split ∈ (s.splits p first last items b).values,
      Rearranged s.attributes.orderless run split.chosen ∧
        Rearranged s.attributes.orderless later split.after := by
  obtain ⟨least, most⟩ := Width.admits_iff.mp admits
  have sameMost : s.most p = p.width.most := by simp [Siblings.most, flat]
  have passes (t : Term) (member : t ∈ run) : s.fits p t = true := by simp [Siblings.fits, fits t member]
  have inItems {t : Term} (member : t ∈ run) : t ∈ items :=
    order.perm.subset (List.mem_append_left later member)
  have enough : ¬ (items.filter (s.fits p)).length < p.width.least := by
    have count := (order.perm.filter (s.fits p)).length_eq
    rw [List.filter_append, List.filter_eq_self.mpr passes, List.length_append] at count
    omega
  unfold splits
  dsimp only
  rw [if_neg enough]
  by_cases orderless : s.attributes.orderless = true
  · rw [orderless] at order ⊢
    simp only [Bool.not_true, Bool.false_eq_true, if_false]
    cases value : boundTo? b p with
    | none =>
      obtain ⟨chosen, rest, found, permChosen, permRest⟩ := Search.mem_choose_of_perm order passes
      have sized : run.length ∈ Search.sizes items.length p.width.least (s.most p) (!last) := by
        refine Search.mem_sizes.mpr ⟨least, Search.le_largest.mpr ⟨?_, sameMost ▸ most⟩⟩
        have := order.perm.length_eq
        rw [List.length_append] at this
        omega
      refine ⟨⟨[], chosen, rest⟩, Search.mem_subsets.mpr ⟨_, _, _, sized, found, rfl⟩, ?_, ?_⟩
      · exact permChosen.symm
      · exact permRest.symm
    | some v =>
      obtain rfl := bound v value
      have plainRun (t : Term) (member : t ∈ run) : t.isPlain = true := plain t (inItems member)
      have needed : s.needed (.ofRun run) = run := by
        simpa [Siblings.needed, flat, Term.items] using
          Term.items_ofRun_of_isPlain plainRun
      have only (want : Term) (wanted : want ∈ run) (t : Term) (member : t ∈ items) :
          (t.same want && s.fits p t) = true ↔ t = want := by
        have same := Term.same_iff_eq (Term.isExact_of_isPlain (plain t member))
          (Term.isExact_of_isPlain (plainRun want wanted))
        rw [Bool.and_eq_true, same]
        exact ⟨And.left, fun eq => ⟨eq, eq ▸ passes want wanted⟩⟩
      obtain ⟨after, taken, permAfter⟩ := take?_of_perm only order.perm
      refine ⟨⟨[], run, after⟩, ?_, .refl .., permAfter.symm⟩
      simp only [needed, taken, Search.values_ofOption, Option.mem_toList]
  · rw [Bool.not_eq_true] at orderless
    rw [orderless] at order ⊢
    obtain rfl : run ++ later = items := order
    rw [if_pos (by rfl), sameMost]
    exact ⟨⟨[], run, later⟩, Search.mem_runs_append least most .., .refl .., .refl ..⟩

theorem least_le_of_mem_splits {split : Split Term}
    (found : split ∈ (s.splits p first last items b).values) :
    p.width.least ≤ (items.filter (s.fits p)).length := by
  refine Nat.not_lt.mp fun few => ?_
  simp [splits, few] at found

theorem splits_eq_runs (ordered : s.attributes.orderless = false)
    (enough : p.width.least ≤ (items.filter (s.fits p)).length) :
    s.splits p first last items b =
      Search.runs items p.width.least (s.most p) (first && !s.whole) (!last) := by
  simp [splits, Nat.not_lt.mpr enough, ordered]

variable {e : Element Matcher} {later : List (Element Matcher)}

theorem mem_distribute_nil {m : Match} :
    m ∈ (s.distribute first [] items b).values ↔ (s.whole = true → items = []) ∧ m = ⟨b, ⟨[], items⟩⟩ := by
  rw [distribute, Search.values_ite]
  by_cases whole : s.whole = true <;> by_cases empty : items = [] <;> simp [whole, empty]

theorem mem_distribute_cons {m : Match} :
    m ∈ (s.distribute first (e :: later) items b).values ↔
      ∃ split ∈ (s.splits e.pattern first later.isEmpty items b).values,
        ∃ t ∈ (s.presentations e.pattern split.chosen).values,
          ∃ now ∈ (e.matcher ⟨some ⟨s.head, e.position, s.count⟩, true⟩ t b).values,
            ∃ rest ∈ (s.distribute false later split.after now.bindings).values,
              { rest with left := ⟨split.before, rest.left.after⟩ } = m := by
  simp only [distribute, Search.values_bind, Search.values_map, List.mem_flatMap, List.mem_map]

theorem values_distribute_cons :
    (s.distribute first (e :: later) items b).values.map (·.bindings) =
      (s.splits e.pattern first later.isEmpty items b).values.flatMap fun split =>
        (s.presentations e.pattern split.chosen).values.flatMap fun t =>
          (e.matcher ⟨some ⟨s.head, e.position, s.count⟩, true⟩ t b).values.flatMap fun m =>
            (s.distribute false later split.after m.bindings).values.map (·.bindings) := by
  rw [distribute]
  simp only [Search.values_bind, Search.values_map, List.map_flatMap, List.map_map]
  rfl

end Siblings

end TermRewriting
