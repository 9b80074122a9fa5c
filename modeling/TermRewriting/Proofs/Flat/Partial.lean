import TermRewriting.Proofs.Flat.Replacement
import TermRewriting.Proofs.Matching.Reordered

/-! Matching in part under a flat head. A match of some of the arguments as a whole is also found
among all of them, where the others are left over: any sub-collection if order does not count, and
otherwise a block of arguments that begins where a run may begin. -/

namespace TermRewriting

/-- The first list is part of the second: any items of it if order is free, and else those at its
front. -/
def PartOf {α : Type} (free : Bool) (xs ys : List α) : Prop := if free then xs.Sublist ys else xs <+: ys

namespace Siblings

variable {s : Siblings} {p : Pattern} {first last : Bool} {items items' : List Term} {b : Bindings}

section

variable {α : Type} {xs ys : List α}

theorem pull?_of_sublist {holds : α → Bool} {rest : List α} {x : α} (sub : xs.Sublist ys)
    (only : ∀ y ∈ ys, ∀ z ∈ ys, holds y = true → holds z = true → y = z)
    (pulled : pull? holds xs = some (x, rest)) :
    ∃ rest', pull? holds ys = some (x, rest') ∧ rest.Sublist rest' := by
  induction sub generalizing rest with
  | slnil => cases pulled
  | @cons xs ys y sub ih =>
    obtain ⟨holds_x, perm⟩ := perm_of_pull? pulled
    have inItems : x ∈ ys := sub.subset (perm.subset (by simp))
    by_cases here : holds y = true
    · obtain rfl := only y (by simp) x (by simp [inItems]) here holds_x
      exact ⟨ys, by simp [pull?, here], (sublist_of_pull? pulled).trans sub⟩
    · obtain ⟨rest', pulled', more⟩ :=
        ih (fun z hz w hw => only z (by simp [hz]) w (by simp [hw])) pulled
      exact ⟨y :: rest', by simp [pull?, here, pulled'], more.cons y⟩
  | @cons_cons xs ys y sub ih =>
    by_cases here : holds y = true
    · simp only [pull?, here, if_true, Option.some.injEq, Prod.mk.injEq] at pulled
      obtain ⟨rfl, rfl⟩ := pulled
      exact ⟨ys, by simp [pull?, here], sub⟩
    · simp only [pull?, here, Bool.false_eq_true, if_false, Option.map_eq_some_iff, Prod.mk.injEq,
        Prod.exists] at pulled
      obtain ⟨_, older, pulled, rfl, rfl⟩ := pulled
      obtain ⟨rest', pulled', more⟩ :=
        ih (fun z hz w hw => only z (by simp [hz]) w (by simp [hw])) pulled
      exact ⟨y :: rest', by simp [pull?, here, pulled'], more.cons_cons y⟩

/-- If no two items do for the same wanted term, then the items that are taken do not depend on what
else there is. -/
theorem take?_of_sublist {does : Term → α → Bool} {wanted : List Term} {split : Split α}
    (sub : xs.Sublist ys)
    (only : ∀ want, ∀ y ∈ ys, ∀ z ∈ ys, does want y = true → does want z = true → y = z)
    (taken : take? does wanted xs = some split) :
    ∃ after, take? does wanted ys = some ⟨[], split.chosen, after⟩ ∧ split.after.Sublist after := by
  induction wanted generalizing xs ys split with
  | nil =>
    obtain rfl := Option.some.inj taken
    exact ⟨ys, rfl, sub⟩
  | cons want wanted ih =>
    rw [take?_cons_eq_some_iff] at taken
    obtain ⟨x, rest, pulled, later, taken, rfl⟩ := taken
    obtain ⟨rest', pulled', subRest⟩ := pull?_of_sublist sub (only want) pulled
    have inItems {y : α} (member : y ∈ rest') : y ∈ ys := (sublist_of_pull? pulled').subset member
    obtain ⟨after, taken', more⟩ :=
      ih subRest (fun want y hy z hz => only want y (inItems hy) z (inItems hz)) taken
    exact ⟨after, by simp [take?, pulled', taken'], more⟩

end

def inPart (s : Siblings) (args : List Term) : Siblings := { s with args, whole := false }

/-- Where a run of the element may begin: at the first item, or after so many of them that its longest
run still fits behind them. -/
def MayBegin (s : Siblings) (p : Pattern) (skipped all : Nat) : Prop :=
  skipped = 0 ∨ skipped + Search.largest all (s.most p) ≤ all

theorem least_le_of_sublist (sub : items.Sublist items') {split : Split Term}
    (found : split ∈ (s.splits p first last items b).values) :
    p.width.least ≤ (items'.filter (s.fits p)).length :=
  Nat.le_trans (least_le_of_mem_splits found) (sub.filter (s.fits p)).length_le

/-- If order does not count, an element can choose the same from more arguments, bound or not. -/
theorem mem_splits_of_sublist (orderless : s.attributes.orderless = true) (sub : items.Sublist items')
    (exact : ∀ t ∈ items', t.isExact = true) (args : List Term) {split : Split Term}
    (found : split ∈ (s.splits p first last items b).values) :
    ∃ after, ⟨[], split.chosen, after⟩ ∈ ((s.inPart args).splits p first last items' b).values ∧
      split.after.Sublist after := by
  have order : (s.inPart args).attributes.orderless = true := orderless
  have enough := least_le_of_mem_splits found
  have enough' : p.width.least ≤ (items'.filter ((s.inPart args).fits p)).length :=
    least_le_of_sublist (s := s) sub found
  unfold splits at found ⊢
  simp only [Nat.not_lt.mpr enough, Nat.not_lt.mpr enough', orderless, order, Bool.not_true,
    Bool.false_eq_true, if_false] at found ⊢
  cases value : boundTo? b p with
  | none =>
    simp only [value, Search.mem_subsets] at found ⊢
    obtain ⟨size, chosen, rest, sized, found, rfl⟩ := found
    obtain ⟨rest', found', more⟩ := Search.mem_choose_of_sublist sub found
    obtain ⟨least, most⟩ := Search.mem_sizes.mp sized
    obtain ⟨within, most⟩ := Search.le_largest.mp most
    have sized' : size ∈ Search.sizes items'.length p.width.least (s.most p) (!last) :=
      Search.mem_sizes.mpr ⟨least, Search.le_largest.mpr ⟨Nat.le_trans within sub.length_le, most⟩⟩
    exact ⟨rest', ⟨size, chosen, rest', sized', found', rfl⟩, more⟩
  | some v =>
    simp only [value, Search.values_ofOption, Option.mem_toList] at found ⊢
    have only (want t : Term) (ht : t ∈ items') (u : Term) (hu : u ∈ items')
        (first : (t.same want && s.fits p t) = true) (second : (u.same want && s.fits p u) = true) :
        t = u := by
      rw [Bool.and_eq_true] at first second
      exact Term.eq_of_same (exact t ht) (exact u hu) first.1 second.1
    exact take?_of_sublist sub only found

/-- If order counts, an element can take the same run from a block of the arguments, if a run may
begin where the block does. -/
theorem mem_splits_of_block (ordered : s.attributes.orderless = false) (whole : s.whole = true)
    {before block after : List Term} (args : List Term)
    (start : before = [] ∨ first = true ∧ s.MayBegin p before.length (before ++ block ++ after).length)
    {split : Split Term} (found : split ∈ (s.splits p first last block b).values) :
    ⟨before, split.chosen, split.after ++ after⟩ ∈
      ((s.inPart args).splits p first last (before ++ block ++ after) b).values := by
  have inside : block.Sublist (before ++ block ++ after) :=
    (List.sublist_append_right before block).trans (List.sublist_append_left ..)
  rw [splits_eq_runs (s := s.inPart args) ordered (least_le_of_sublist (s := s) inside found)]
  rw [splits_eq_runs ordered (least_le_of_mem_splits found), whole, Bool.not_true, Bool.and_false] at found
  refine Search.mem_runs_of_block found ?_
  rcases start with none | ⟨isFirst, none | fits⟩
  · exact .inl none
  · exact .inl (List.length_eq_zero_iff.mp none)
  · exact .inr ⟨by simp [isFirst, inPart], fits⟩

/-- With more arguments to choose from, an element can choose the same, and leaves no less. -/
theorem mem_splits_of_partOf (whole : s.whole = true) (part : PartOf s.attributes.orderless items items')
    (exact : s.attributes.orderless = true → ∀ t ∈ items', t.isExact = true) (args : List Term)
    {split : Split Term} (found : split ∈ (s.splits p first last items b).values) :
    ∃ after, ⟨[], split.chosen, after⟩ ∈ ((s.inPart args).splits p first last items' b).values ∧
      PartOf s.attributes.orderless split.after after := by
  cases orderless : s.attributes.orderless with
  | true =>
    rw [orderless] at part
    exact mem_splits_of_sublist orderless part (exact orderless) args found
  | false =>
    rw [orderless] at part
    obtain ⟨after, rfl⟩ := part
    have found' : ⟨[], split.chosen, split.after ++ after⟩ ∈
        ((s.inPart args).splits p first last ([] ++ items ++ after) b).values :=
      mem_splits_of_block orderless whole args (.inl rfl) found
    exact ⟨split.after ++ after, found', List.prefix_append ..⟩

theorem mem_presentations_inPart {args chosen : List Term} (more : s.args.length ≤ args.length) {t : Term}
    (presented : t ∈ (s.presentations p chosen).values) :
    t ∈ ((s.inPart args).presentations p chosen).values := by
  by_cases alone : chosen.length = 1
  · obtain ⟨u, rfl⟩ := List.length_eq_one_iff.mp alone
    exact presented
  rw [presentations_of_length_ne_one _ _ alone, Search.values_append, List.mem_append] at presented ⊢
  refine presented.imp id fun application => ?_
  split at application
  · next flattens =>
    simp only [Bool.and_eq_true, decide_eq_true_eq] at flattens
    rw [if_pos]
    · exact application
    · simp only [Bool.and_eq_true, decide_eq_true_eq]
      exact ⟨flattens.1, Nat.lt_of_lt_of_le flattens.2 more⟩
  · simp at application

theorem length_of_mem_splits (whole : s.whole = true) {split : Split Term}
    (found : split ∈ (s.splits p first last items b).values) :
    items.length = split.chosen.length + split.after.length := by
  have length := (rearranged_of_mem_splits found).1.perm.length_eq
  rw [before_of_mem_splits found (by simp [whole])] at length
  simpa using length.symm

/-- What the elements match as a whole, they match in the same way within more arguments, and all
further arguments are left over. The induction is on the elements. -/
theorem mem_distribute_inPart (whole : s.whole = true) {elements : List (Element Matcher)}
    {args : List Term} (more : s.args.length ≤ args.length)
    (part : PartOf s.attributes.orderless items items')
    (exact : s.attributes.orderless = true → ∀ t ∈ items', t.isExact = true) {m : Match}
    (found : m ∈ (s.distribute first elements items b).values) :
    ∃ after, ⟨m.bindings, [], after⟩ ∈ ((s.inPart args).distribute first elements items' b).values ∧
      after.length + items.length = items'.length := by
  induction elements generalizing first items items' b m with
  | nil =>
    obtain ⟨none, rfl⟩ := mem_distribute_nil.mp found
    obtain rfl := none whole
    exact ⟨items', mem_distribute_nil.mpr ⟨by simp [inPart], rfl⟩, rfl⟩
  | cons e later ih =>
    obtain ⟨split, inSplits, t, presented, now, matched, rest, continued, rfl⟩ :=
      mem_distribute_cons.mp found
    obtain ⟨left, inSplits', part'⟩ := mem_splits_of_partOf whole part exact args inSplits
    have fewer : left.Sublist items' := by
      have sub := (rearranged_of_mem_splits inSplits').2
      rwa [List.nil_append] at sub
    obtain ⟨after, continued', length⟩ :=
      ih part' (fun orderless t member => exact orderless t (fewer.subset member)) continued
    refine ⟨after, mem_distribute_cons.mpr ⟨_, inSplits', t, mem_presentations_inPart more presented, now,
      matched, _, continued', rfl⟩, ?_⟩
    have chosen := (rearranged_of_mem_splits inSplits').1.perm.length_eq
    simp only [List.nil_append, List.length_append] at chosen
    have taken := length_of_mem_splits whole inSplits
    omega

/-- If order counts, only the first element decides where the block may begin. -/
theorem mem_distribute_of_block (whole : s.whole = true) (ordered : s.attributes.orderless = false)
    {e : Element Matcher} {later : List (Element Matcher)} {before after : List Term}
    (start : s.MayBegin e.pattern before.length (before ++ s.args ++ after).length) {m : Match}
    (found : m ∈ (s.distribute true (e :: later) s.args b).values) :
    ∃ left, ⟨m.bindings, before, left⟩ ∈
        ((s.inPart (before ++ s.args ++ after)).distribute true (e :: later) (before ++ s.args ++ after) b).values ∧
      before.length + left.length + s.args.length = (before ++ s.args ++ after).length := by
  have more : s.args.length ≤ (before ++ s.args ++ after).length := by
    simp only [List.length_append]
    omega
  obtain ⟨split, inSplits, t, presented, now, matched, rest, continued, rfl⟩ := mem_distribute_cons.mp found
  have inSplits' := mem_splits_of_block ordered whole (before ++ s.args ++ after) (.inr ⟨rfl, start⟩) inSplits
  have part : PartOf s.attributes.orderless split.after (split.after ++ after) := by
    rw [ordered]
    exact List.prefix_append ..
  obtain ⟨left, continued', length⟩ := mem_distribute_inPart whole more part (by simp [ordered]) continued
  refine ⟨left, mem_distribute_cons.mpr ⟨_, inSplits', t, mem_presentations_inPart more presented, now,
    matched, _, continued', rfl⟩, ?_⟩
  have taken := length_of_mem_splits whole inSplits
  simp only [List.length_append] at length ⊢
  omega

theorem matchAll_eq_distribute {elements : List (Element Matcher)} {e : Element Matcher}
    {later : List (Element Matcher)}
    (order : Element.inOrder s.attributes.orderless elements = e :: later) :
    s.matchAll elements b = s.distribute true (e :: later) s.args b := by
  simp [matchAll, order]

theorem exists_of_mem_matchAll (some : s.args ≠ []) {elements : List (Element Matcher)} {m : Match}
    (found : m ∈ (s.matchAll elements b).values) :
    ∃ e later, Element.inOrder s.attributes.orderless elements = e :: later := by
  refine List.exists_cons_of_ne_nil fun none => some ?_
  simp only [matchAll, none] at found
  exact (mem_distribute_nil.mp found).1 (by simp)

/-- What the elements match as a whole if order does not count, they also match among more arguments,
and leave the others over. -/
theorem mem_matchAll_of_sublist (whole : s.whole = true) (orderless : s.attributes.orderless = true)
    (some : s.args ≠ []) {args : List Term} (sub : s.args.Sublist args)
    (exact : ∀ t ∈ args, t.isExact = true) {elements : List (Element Matcher)} {m : Match}
    (found : m ∈ (s.matchAll elements b).values) :
    ∃ m' ∈ ((s.inPart args).matchAll elements b).values, m'.left.size + s.args.length = args.length := by
  obtain ⟨e, later, order⟩ := exists_of_mem_matchAll some found
  rw [matchAll_eq_distribute order] at found
  have part : PartOf s.attributes.orderless s.args args := by
    rw [orderless]
    exact sub
  obtain ⟨after, found', length⟩ := mem_distribute_inPart whole sub.length_le part (fun _ => exact) found
  refine ⟨⟨m.bindings, [], after⟩, ?_, by simpa [Leftover.size] using length⟩
  rw [matchAll_eq_distribute (s := s.inPart args) order]
  exact found'

/-- If order counts, they match a block of the arguments if the first of them may begin there. -/
theorem mem_matchAll_of_block (whole : s.whole = true) (ordered : s.attributes.orderless = false)
    {before after : List Term} (some : s.args ≠ []) {elements : List (Element Matcher)}
    (start : ∀ first ∈ (elements.map (·.pattern)).head?,
      s.MayBegin first before.length (before ++ s.args ++ after).length)
    {m : Match} (found : m ∈ (s.matchAll elements b).values) :
    ∃ m' ∈ ((s.inPart (before ++ s.args ++ after)).matchAll elements b).values,
      m'.left.size + s.args.length = (before ++ s.args ++ after).length := by
  obtain ⟨e, later, order⟩ := exists_of_mem_matchAll some found
  rw [matchAll_eq_distribute order] at found
  have elements_eq : elements = e :: later := by simpa [ordered, Element.inOrder] using order
  have mayBegin := start e.pattern (by simp [elements_eq])
  obtain ⟨left, found', length⟩ := mem_distribute_of_block whole ordered mayBegin found
  refine ⟨⟨m.bindings, before, left⟩, ?_, length⟩
  rw [matchAll_eq_distribute (s := s.inPart (before ++ s.args ++ after)) order]
  exact found'

end Siblings

/-- Where a block of the arguments may begin if their order counts: at the first argument, or after so
many of them that the longest run of the first element still fits behind them. Under a flat head there
is no longest run of a wildcard. -/
def Pattern.BlockMayBegin (elements : List Pattern) (skipped all : Nat) : Prop :=
  skipped = 0 ∨ ∃ first ∈ elements.head?, first.isWildcard = false ∧
    ∃ most, first.width.most = some most ∧ skipped + most ≤ all

namespace Rule

open Siblings

section

variable {ev : Evaluator} {r : Rule} {h : String} {ps : List Pattern}
  (flat : (ev.attributes h).flat = true) (lhs : r.lhs = .compound (.literal (.symbol h)) ps)
  (explicit : ∀ p ∈ ps, p.Explicit)
include flat lhs explicit

/-- A rule that applies to some arguments as a whole applies to more of them in part, if each match is
also found there and leaves only the others over. -/
theorem isSome_apply_of_part {part args : List Term} (some : part ≠ [])
    (more : ∀ m ∈ (matchAll ⟨.symbol h, part, ev.attributes h, ps.length, true⟩
        (Pattern.elementsFrom ev 1 ps) .empty).values,
      ∃ m' ∈ (matchAll ⟨.symbol h, args, ev.attributes h, ps.length, false⟩
        (Pattern.elementsFrom ev 1 ps) .empty).values, m'.left.size + part.length = args.length)
    {j j' : Journal} (applies : (r.apply ev (.call h part) true j).1.isSome = true) :
    (r.apply ev (.call h args) false j').1.isSome = true := by
  have explicit : r.lhs.Explicit := by
    rw [lhs]
    exact .compound (.literal _) explicit
  obtain ⟨m, found, -⟩ := (isSome_apply explicit).mp applies
  rw [lhs, Pattern.search_call, flat] at found
  obtain ⟨m', found', length⟩ := more m found
  refine (isSome_apply explicit).mpr ⟨m', ?_, isSome_result?.mpr (.inr ?_)⟩
  · rw [lhs, Pattern.search_call, flat]
    exact found'
  · have nonempty := List.length_pos_iff.mpr some
    change m'.left.size ≠ args.length
    omega

/-- Further terms of a flat application whose order does not count never prevent a rewrite. -/
theorem isSome_apply_of_sublist (orderless : (ev.attributes h).orderless = true) {part args : List Term}
    (some : part ≠ []) (sub : part.Sublist args) (exact : ∀ t ∈ args, t.isExact = true) (j j' : Journal)
    (applies : (r.apply ev (.call h part) true j).1.isSome = true) :
    (r.apply ev (.call h args) false j').1.isSome = true :=
  isSome_apply_of_part flat lhs explicit some
    (fun _ found => mem_matchAll_of_sublist rfl orderless some sub exact found) applies

/-- Neither do further terms around a block of the arguments if their order counts, as long as a block
may begin there. -/
theorem isSome_apply_of_block (ordered : (ev.attributes h).orderless = false)
    {before block after : List Term} (some : block ≠ [])
    (start : Pattern.BlockMayBegin ps before.length (before ++ block ++ after).length) (j j' : Journal)
    (applies : (r.apply ev (.call h block) true j).1.isSome = true) :
    (r.apply ev (.call h (before ++ block ++ after)) false j').1.isSome = true := by
  refine isSome_apply_of_part flat lhs explicit some
    (fun _ found => mem_matchAll_of_block rfl ordered some ?_ found) applies
  rw [Pattern.map_pattern_elementsFrom]
  intro first isFirst
  rcases start with none | ⟨first', isFirst', tame, most, width, fits⟩
  · exact .inl none
  · obtain rfl := Option.mem_unique isFirst isFirst'
    have largest : Search.largest (before ++ block ++ after).length (.some most) ≤ most := Nat.min_le_right ..
    refine .inr ?_
    simp only [Siblings.most, tame, width, Bool.and_false, Bool.false_eq_true, if_false]
    omega

end

/-- The rule for `x_ + x_` finds the two equal terms of `a + b + a`. -/
theorem isSome_apply_doubled :
    ∃ rule,
      make [] (Schema.call "Plus" [.wildcard ⟨"x", .one, none⟩, .wildcard ⟨"x", .one, none⟩]).toTerm
        (.call "Times" [.integer 2, .symbol "x"]) false = .ok rule ∧
      (rule.apply sums (.call "Plus" [.symbol "a", .symbol "a"]) true {}).1.isSome = true ∧
      (rule.apply sums (.call "Plus" [.symbol "a", .symbol "b", .symbol "a"]) false {}).1.isSome = true := by
  have sub : [Term.symbol "a", .symbol "a"].Sublist [.symbol "a", .symbol "b", .symbol "a"] :=
    .cons_cons _ (.cons _ (.cons_cons _ .slnil))
  have explicit : Pattern.Explicit (.named "x" (.wildcard .one none)) := .named _ (.wildcard ..)
  exact ⟨_, rfl, by decide, isSome_apply_of_sublist rfl rfl (by simpa using explicit) rfl (by simp) sub
    (by decide) {} {} (by decide)⟩

def nesting : Evaluator :=
  { Evaluator.bare with attributes := fun name => if name = "g" then { flat := true } else {} }

/-- The rule for `g[a, x_Integer]` finds the two arguments in the middle of `g[b, a, 1, b]`. -/
theorem isSome_apply_later :
    ∃ rule,
      make [] (.call "g" [.symbol "a", .call "Pattern" [.symbol "x", .call "Blank" [.symbol "Integer"]]])
        (.symbol "x") false = .ok rule ∧
      (rule.apply nesting (.call "g" [.symbol "a", .integer 1]) true {}).1.isSome = true ∧
      (rule.apply nesting (.call "g" [.symbol "b", .symbol "a", .integer 1, .symbol "b"]) false {}).1.isSome =
        true := by
  refine ⟨_, rfl, by decide, ?_⟩
  have explicit : Pattern.Explicit (.literal (.symbol "a")) ∧
      Pattern.Explicit (.named "x" (.wildcard .one (some (.symbol "Integer")))) :=
    ⟨.literal _, .named _ (.wildcard ..)⟩
  change (apply nesting _ (.call "g" ([.symbol "b"] ++ [.symbol "a", .integer 1] ++ [.symbol "b"])) false
    {}).1.isSome = true
  exact isSome_apply_of_block rfl rfl (by simpa using explicit) rfl (by simp)
    (.inr ⟨_, rfl, rfl, 1, rfl, by decide⟩) {} {} (by decide)

/-- A wildcard at the front may take any number of arguments, so that its run begins at the first one:
the rule for `g[x_Integer, b]` does not find the last two arguments of `g[c, 1, b]`. -/
theorem apply_wildcard_first :
    ∃ rule,
      make [] (.call "g" [.call "Pattern" [.symbol "x", .call "Blank" [.symbol "Integer"]], .symbol "b"])
        (.symbol "r") false = .ok rule ∧
      (rule.apply nesting (.call "g" [.integer 1, .symbol "b"]) true {}).1.isSome = true ∧
      (rule.apply nesting (.call "g" [.symbol "c", .integer 1, .symbol "b"]) false {}).1.isSome = false :=
  ⟨_, rfl, by decide, by decide⟩

end Rule

end TermRewriting
