import Mathlib.Data.List.Nodup
import TermRewriting.Proofs.Search.Partition

/-! What a visitor of choices is called with. The calls are those of one fixed list: every subset of
the items with a permitted size and only included items is in it once, beside the items that are left,
and so is every arrangement of a pool. The working memory of the search is as before in the end. -/

namespace TermRewriting

namespace Search

variable {α β κ : Type}

def Listed (s : Search α) : Prop := ∃ as, s = ofList as

theorem listed_done : (done : Search α).Listed := ⟨[], rfl⟩

theorem listed_one (a : α) : (one a).Listed := ⟨[a], rfl⟩

theorem listed_ofList (as : List α) : (ofList as).Listed := ⟨as, rfl⟩

theorem Listed.append {s : Search α} {t : Unit → Search α} (hs : s.Listed) (ht : (t ()).Listed) :
    (s.append t).Listed := by
  obtain ⟨as, rfl⟩ := hs
  obtain ⟨bs, eq⟩ := ht
  refine ⟨as ++ bs, ?_⟩
  induction as with
  | nil => exact eq
  | cons a as ih => simp only [ofList, Search.append, ih, List.cons_append]

theorem Listed.bind {s : Search α} {f : α → Search β} (hs : s.Listed) (hf : ∀ a, (f a).Listed) :
    (s.bind f).Listed := by
  obtain ⟨as, rfl⟩ := hs
  induction as with
  | nil => exact listed_done
  | cons a as ih => exact (hf a).append ih

theorem Listed.map {s : Search α} (hs : s.Listed) (f : α → β) : (s.map f).Listed := by
  rw [map_eq_bind]
  exact hs.bind fun a => listed_one (f a)

theorem Listed.visit {s : Search α} (hs : s.Listed) (k : α → Visit κ) : s.visit k = .each s.values k := by
  obtain ⟨as, rfl⟩ := hs
  rw [visit_ofList, values_ofList]

theorem listed_choose (fits : α → Bool) (xs : List α) (n : Nat) : (choose fits xs n).Listed := by
  induction xs generalizing n with
  | nil => cases n with
    | zero => exact listed_one _
    | succ n => exact listed_done
  | cons x xs ih => cases n with
    | zero => exact listed_one _
    | succ n =>
      rw [choose]
      split
      · exact listed_done
      · refine Listed.append ?_ ((ih (n + 1)).map _)
        split
        · exact (ih n).map _
        · exact listed_done

theorem listed_subsets {xs : List α} {least : Nat} {most : Option Nat}
    (room : most.getD xs.length + 1 - least ≤ capacity) (fits : α → Bool) (shortestFirst : Bool) :
    (subsets fits xs least most shortestFirst).Listed := by
  rw [subsets, listing, if_neg (by omega)]
  exact (listed_ofList _).bind fun _ => (listed_choose ..).map _

theorem listed_arrangements (n : Nat) (xs : List α) : (arrangements n xs).Listed := by
  induction n generalizing xs with
  | zero => exact listed_one _
  | succ n ih => exact (listed_ofList _).bind fun (_, rest) => (ih rest).map _

section

variable [BEq α] [LawfulBEq α] {fits : α → Bool} {xs chosen rest : List α} {x : α} {n : Nat}

def leaving (xs chosen : List α) : List α := xs.filter (· ∉ chosen)

theorem leaving_nil (xs : List α) : leaving xs [] = xs := by simp [leaving]

theorem leaving_cons_of_not_mem (absent : x ∉ chosen) :
    leaving (x :: xs) chosen = x :: leaving xs chosen := by simp [leaving, absent]

theorem leaving_cons_cons (first : x ∉ xs) : leaving (x :: xs) (x :: chosen) = leaving xs chosen := by
  have others : xs.filter (· ∉ x :: chosen) = xs.filter (· ∉ chosen) := by
    refine List.filter_congr fun y member => ?_
    have apart : y ≠ x := fun eq => first (eq ▸ member)
    simp [apart]
  rw [leaving, List.filter_cons_of_neg (by simp), others, leaving]

/-- Distinct items are chosen by leaving out the others, and what is left is determined by that. -/
theorem mem_choose_iff (distinct : xs.Nodup) :
    (chosen, rest) ∈ (choose fits xs n).values ↔ chosen.Sublist xs ∧ chosen.length = n ∧
      (∀ x ∈ chosen, fits x = true) ∧ rest = leaving xs chosen := by
  induction xs generalizing n chosen rest with
  | nil =>
    cases n with
    | zero =>
      rw [mem_choose_zero]
      constructor
      · rintro ⟨rfl, rfl⟩
        simp [leaving]
      · rintro ⟨sub, -, -, rfl⟩
        exact ⟨List.sublist_nil.mp sub, rfl⟩
    | succ n => simp +contextual [choose]
  | cons x xs ih =>
    obtain ⟨first, distinct⟩ := List.nodup_cons.mp distinct
    cases n with
    | zero =>
      rw [mem_choose_zero]
      constructor
      · rintro ⟨rfl, rfl⟩
        simp [leaving]
      · rintro ⟨-, none, -, rfl⟩
        obtain rfl := List.length_eq_zero_iff.mp none
        exact ⟨rfl, leaving_nil _⟩
    | succ n =>
      rw [mem_choose_succ]
      constructor
      · rintro ⟨-, ⟨here, later, found, rfl⟩ | ⟨later, found, rfl⟩⟩
        · obtain ⟨sub, rfl, allFit, rfl⟩ := (ih distinct).mp found
          exact ⟨sub.cons_cons x, rfl, List.forall_mem_cons.mpr ⟨here, allFit⟩, (leaving_cons_cons first).symm⟩
        · obtain ⟨sub, length, allFit, rfl⟩ := (ih distinct).mp found
          have absent : x ∉ chosen := fun member => first (sub.subset member)
          exact ⟨sub.cons x, length, allFit, (leaving_cons_of_not_mem absent).symm⟩
      · rintro ⟨sub, length, allFit, rfl⟩
        have enough : n ≤ xs.length := by
          have := sub.length_le
          simp only [length, List.length_cons] at this
          omega
        refine ⟨enough, ?_⟩
        cases sub with
        | cons _ sub =>
          have absent : x ∉ chosen := fun member => first (sub.subset member)
          exact .inr ⟨_, (ih distinct).mpr ⟨sub, length, allFit, rfl⟩, (leaving_cons_of_not_mem absent).symm⟩
        | cons_cons _ sub =>
          obtain ⟨here, allFit⟩ := List.forall_mem_cons.mp allFit
          rw [leaving_cons_cons first]
          exact .inl ⟨here, _, (ih distinct).mpr ⟨sub, by simpa using length, allFit, rfl⟩, rfl⟩

end

/-- Sizes go up or down, except that zero comes last. -/
def SizeEarlier (shortestFirst : Bool) (m n : Nat) : Prop :=
  m ≠ 0 ∧ (n = 0 ∨ if shortestFirst then m < n else n < m)

theorem SizeEarlier.ne {shortestFirst : Bool} {m n : Nat} (h : SizeEarlier shortestFirst m n) : m ≠ n := by
  obtain ⟨pos, rfl | later⟩ := h
  · exact pos
  · split at later <;> omega

theorem pairwise_sizes (all least : Nat) (most : Option Nat) (shortestFirst : Bool) :
    let sizes := sizes all least most shortestFirst
    (sizes.filter (· != 0) ++ sizes.filter (· == 0)).Pairwise (SizeEarlier shortestFirst) := by
  intro sizes
  have ordered : sizes.Pairwise fun m n => if shortestFirst then m < n else n < m := by
    have ascending : (List.range' least (largest all most + 1 - least)).Pairwise (· < ·) :=
      List.pairwise_lt_range'
    cases shortestFirst with
    | true => exact ascending
    | false => exact List.pairwise_reverse.mpr ascending
  refine List.pairwise_append.mpr ⟨?_, ?_, ?_⟩
  · refine (ordered.filter _).imp_of_mem fun {m n} member _ later => ⟨?_, .inr later⟩
    simpa using (List.mem_filter.mp member).2
  · refine ((sizes_nodup all least most shortestFirst).filter _).imp_of_mem fun {m n} member member' ne => ?_
    obtain ⟨⟨-, zero⟩, -, zero'⟩ := And.intro (List.mem_filter.mp member) (List.mem_filter.mp member')
    simp only [beq_iff_eq] at zero zero'
    exact absurd (zero.trans zero'.symm) ne
  · intro m member n member'
    exact ⟨by simpa using (List.mem_filter.mp member).2, .inl (by simpa using (List.mem_filter.mp member').2)⟩

end Search

section

variable {α : Type} [BEq α]

/-- Earlier by size, or as large and earlier in the lexicographic order of the places in the list. -/
def ChoiceEarlier (xs : List α) (shortestFirst : Bool) (chosen other : List α) : Prop :=
  Search.SizeEarlier shortestFirst chosen.length other.length ∨
    chosen.length = other.length ∧ List.Lex (fun x y => xs.idxOf x < xs.idxOf y) chosen other

theorem ChoiceEarlier.ne {xs chosen other : List α} {shortestFirst : Bool}
    (h : ChoiceEarlier xs shortestFirst chosen other) : chosen ≠ other := by
  rcases h with bySize | ⟨-, byPlace⟩
  · exact fun eq => bySize.ne (congrArg _ eq)
  · refine ne_of_lex (fun x y less eq => ?_) byPlace
    exact Nat.lt_irrefl _ (eq ▸ less)

variable [LawfulBEq α]

/-- The calls with subsets of the list: each subset of included items with a permitted size once, with
what it leaves of the list, in order. -/
structure CallsSubsets (xs included : List α) (least : Nat) (most : Option Nat) (shortestFirst : Bool)
    (calls : List (List α × List α)) : Prop where
  mem_iff : ∀ chosen left, (chosen, left) ∈ calls ↔
    (chosen.Sublist xs ∧ ∀ x ∈ chosen, x ∈ included) ∧
      (least ≤ chosen.length ∧ most.all (chosen.length ≤ ·) = true) ∧ left = xs.filter (· ∉ chosen)
  once : calls.Nodup
  ordered : calls.Pairwise fun (chosen, _) (other, _) => ChoiceEarlier xs shortestFirst chosen other

/-- The calls with arrangements of a pool: each once. -/
structure CallsArrangements (pool : List α) (calls : List (List α)) : Prop where
  mem_iff : ∀ arranged, arranged ∈ calls ↔ arranged.Perm pool
  once : calls.Nodup

end

namespace Search

variable {α : Type}

theorem nodup_picks {xs : List α} (distinct : xs.Nodup) : ((picks xs).map Prod.fst).Nodup := by
  have same : (picks xs).map Prod.fst = xs := by
    induction xs with
    | nil => rfl
    | cons x xs ih =>
      simpa [picks, Function.comp_def] using ih (List.nodup_cons.mp distinct).2
  rwa [same]

theorem nodup_arrangements {n : Nat} {xs : List α} (distinct : xs.Nodup) (length : xs.length = n) :
    (arrangements n xs).values.Nodup := by
  induction n generalizing xs with
  | zero => simp [arrangements]
  | succ n ih =>
    simp only [arrangements, values_bind, values_map, values_ofList]
    refine List.nodup_flatMap.mpr ⟨?_, ?_⟩
    · rintro ⟨x, rest⟩ picked
      obtain ⟨front, back, rfl, rfl⟩ := mem_picks.mp picked
      have others : (front ++ back).Nodup := distinct.sublist (by simp)
      exact (ih others (by simp at length ⊢; omega)).map (fun _ _ eq => (List.cons.inj eq).2)
    · refine (List.pairwise_map.mp (nodup_picks distinct)).imp fun {first other} apart => ?_
      intro ys member member'
      obtain ⟨later, -, rfl⟩ := List.mem_map.mp member
      obtain ⟨later', -, eq⟩ := List.mem_map.mp member'
      exact apart (List.cons.inj eq).1.symm

theorem callsArrangements_arrangements {xs : List α} (distinct : xs.Nodup) :
    CallsArrangements xs (arrangements xs.length xs).values :=
  ⟨fun _ => mem_arrangements_length rfl, nodup_arrangements distinct rfl⟩

theorem isBroken_note (j : Journal) (n : Notice) : (j.note n).isBroken = (j.isBroken || n.severity == .fatal) := by
  simp [Journal.note, Journal.isBroken]

theorem isBroken_inherit (j : Journal) (cell : Position) (declared : Options) :
    (j.inherit cell declared).2.isBroken = j.isBroken := by
  unfold Journal.inherit
  split <;> rfl

/-- What has broken down stays so. -/
theorem isBroken_runFrom (s : Search α) (strategy : Strategy α) (seen : Array α) {j : Journal}
    (broken : j.isBroken = true) : (s.runFrom strategy seen j).journal.isBroken = true := by
  induction s generalizing seen j with
  | done => exact broken
  | found a next ih =>
    rw [runFrom]
    split
    · exact broken
    · exact ih () _ broken
  | note n next ih => exact ih () seen (by rw [isBroken_note, broken, Bool.true_or])
  | inherit cell declared next ih => exact ih _ seen ((isBroken_inherit j cell declared).trans broken)

section

variable [BEq α] {xs : List α} {least : Nat} {most : Option Nat}
  (full : capacity < most.getD xs.length + 1 - least) (included : List α) (shortestFirst : Bool)
include full

theorem subsets_of_capacity_lt {κ : Type} (k : (chosen left : List α) → Visit κ) :
    ∃ later, Visit.subsets xs included least most shortestFirst k = .note .capacityOverflow later := by
  have some : ¬most.getD xs.length < least := by omega
  exact ⟨_, by rw [Visit.subsets, if_neg some, if_pos full]⟩

theorem outcome_subsets_of_capacity_lt (strategy : Strategy (List α × List α)) (j : Journal) :
    (Visit.outcome (fun k => Visit.subsets xs included least most shortestFirst fun chosen left => k (chosen, left))
      strategy j).result? = none := by
  have broken : (j.note .capacityOverflow).isBroken = true := by rw [isBroken_note]; exact Bool.or_true _
  have visited := visit_map (fun split : Split α => (split.chosen, split.after))
    (subsets included.contains xs least most shortestFirst) (Visit.follow strategy)
  rw [← visit_subsets xs included least most shortestFirst fun chosen left => Visit.follow strategy (chosen, left)]
    at visited
  rw [Outcome.result?, Visit.outcome, ← visited, visit_follow]
  refine if_pos ?_
  simp only [subsets, listing, if_pos full, Search.map, runFrom]
  exact isBroken_runFrom _ _ _ broken

end

section

variable [BEq α] [LawfulBEq α]

theorem pairwise_idxOf {xs : List α} (distinct : xs.Nodup) :
    xs.Pairwise fun x y => xs.idxOf x < xs.idxOf y := by
  refine List.pairwise_iff_getElem.mpr fun i j hi hj less => ?_
  rwa [distinct.idxOf_getElem, distinct.idxOf_getElem]

theorem callsSubsets_subsets {xs : List α} (distinct : xs.Nodup) (included : List α) (least : Nat)
    (most : Option Nat) (shortestFirst : Bool) :
    CallsSubsets xs included least most shortestFirst
      ((subsets included.contains xs least most shortestFirst).values.map fun split =>
        (split.chosen, split.after)) := by
  have ordered : ((subsets included.contains xs least most shortestFirst).values.map fun split =>
      (split.chosen, split.after)).Pairwise
        fun (chosen, _) (other, _) => ChoiceEarlier xs shortestFirst chosen other := by
    simp only [subsets, values_listing, values_bind, values_map, values_ofList, List.map_flatMap, List.map_map]
    refine List.pairwise_flatMap.mpr ⟨fun size _ => ?_, ?_⟩
    · refine List.pairwise_map.mpr ((pairwise_choose (pairwise_idxOf distinct) size).imp_of_mem ?_)
      rintro ⟨chosen, rest⟩ ⟨other, rest'⟩ found found' byPlace
      have length := (perm_of_mem_choose found).2.1
      have length' := (perm_of_mem_choose found').2.1
      exact .inr ⟨length.trans length'.symm, byPlace⟩
    · refine (pairwise_sizes ..).imp fun {m n} earlier => ?_
      intro call member other member'
      obtain ⟨⟨chosen, rest⟩, found, rfl⟩ := List.mem_map.mp member
      obtain ⟨⟨chosen', rest'⟩, found', rfl⟩ := List.mem_map.mp member'
      have length := (perm_of_mem_choose found).2.1
      have length' := (perm_of_mem_choose found').2.1
      refine .inl ?_
      simpa only [Function.comp, length, length'] using earlier
  refine ⟨fun chosen left => ?_, ordered.imp fun {call other} earlier eq => ?_, ordered⟩
  · simp only [List.mem_map, mem_subsets, mem_choose_iff distinct, mem_sizes, le_largest]
    constructor
    · rintro ⟨_, ⟨size, _, _, ⟨least, -, most⟩, ⟨sub, rfl, allIncluded, rfl⟩, rfl⟩, eq⟩
      obtain ⟨rfl, rfl⟩ := Prod.mk.inj eq
      exact ⟨⟨sub, fun x member => by simpa using allIncluded x member⟩, ⟨least, most⟩, rfl⟩
    · rintro ⟨⟨sub, allIncluded⟩, ⟨least, most⟩, rfl⟩
      exact ⟨_, ⟨_, _, _, ⟨least, sub.length_le, most⟩,
        ⟨sub, rfl, fun x member => by simpa using allIncluded x member, rfl⟩, rfl⟩, rfl⟩
  · exact earlier.ne (congrArg Prod.fst eq)

/-- A visitor of the subsets of distinct items is called once for each, until it stops, if there is room for
a list of all sizes; otherwise the search breaks down before the first call, and has no result. A visitor of
the arrangements of a pool is called once for each, until it stops, and however that ends the pool and what
had been arranged before are in the end as they were. -/
theorem visits_once {xs : List α} (distinct : xs.Nodup) (included : List α) (least : Nat)
    (most : Option Nat) (shortestFirst : Bool) :
    (∃ calls, CallsSubsets xs included least most shortestFirst calls ∧
      (most.getD xs.length + 1 - least ≤ capacity → ∀ (κ : Type) (k : (chosen left : List α) → Visit κ),
        Visit.subsets xs included least most shortestFirst k = .each calls fun (chosen, left) => k chosen left)) ∧
    (capacity < most.getD xs.length + 1 - least →
      (∀ (κ : Type) (k : (chosen left : List α) → Visit κ),
        ∃ later, Visit.subsets xs included least most shortestFirst k = .note .capacityOverflow later) ∧
      ∀ (strategy : Strategy (List α × List α)) (j : Journal),
        (Visit.outcome (fun k => Visit.subsets xs included least most shortestFirst fun chosen left =>
          k (chosen, left)) strategy j).result? = none) ∧
    ∃ calls, CallsArrangements xs calls ∧
      ∀ (κ : Type) (k : List α → Visit κ) (arranged : List α),
        Visit.Restores ⟨xs, arranged⟩ (Visit.arrangements k xs.length)
          (.each calls fun more => k (arranged ++ more)) := by
  refine ⟨⟨_, callsSubsets_subsets distinct included least most shortestFirst, fun room κ k => ?_⟩, fun full => ?_,
    _, callsArrangements_arrangements distinct, fun κ k arranged => ?_⟩
  · have visited := ((listed_subsets room included.contains shortestFirst).map fun split =>
      (split.chosen, split.after)).visit fun (chosen, left) => k chosen left
    rwa [visit_map, values_map, ← visit_subsets] at visited
  · exact ⟨fun κ k => subsets_of_capacity_lt full included shortestFirst k,
      outcome_subsets_of_capacity_lt full included shortestFirst⟩
  · have restored := restores_arrangements k ⟨xs, arranged⟩ rfl
    rwa [(listed_arrangements ..).visit] at restored

end

theorem visits_once_three :
    [3, 1, 2].Nodup ∧
      (∃ calls, CallsSubsets [3, 1, 2] [1, 3] 0 (some 5) true calls ∧
        ∀ (κ : Type) (k : (chosen left : List Nat) → Visit κ),
          Visit.subsets [3, 1, 2] [1, 3] 0 (some 5) true k =
            .each calls fun (chosen, left) => k chosen left) ∧
      ∃ calls, CallsArrangements [3, 1, 2] calls ∧
        ∀ (κ : Type) (k : List Nat → Visit κ) (arranged : List Nat),
          Visit.Restores ⟨[3, 1, 2], arranged⟩ (Visit.arrangements k 3)
            (.each calls fun more => k (arranged ++ more)) := by
  have distinct : [3, 1, 2].Nodup := by decide
  obtain ⟨⟨calls, exact, visits⟩, -, arrangements⟩ := visits_once distinct [1, 3] 0 (some 5) true
  exact ⟨distinct, ⟨calls, exact, visits (by decide)⟩, arrangements⟩

/-- Subsets of up to so many items have one call for a list of one, but it never comes to that. -/
theorem subsets_capacityOverflow :
    let most := some 0x7FFFFFFFFFFFFFFF
    CallsSubsets [0] [0] 1 most true [([0], [])] ∧
      (∀ (κ : Type) (k : (chosen left : List Nat) → Visit κ),
        ∃ later, Visit.subsets [0] [0] 1 most true k = .note .capacityOverflow later) ∧
      (Visit.outcome (fun k => Visit.subsets [0] [0] 1 most true fun c l => k (c, l)) .all {}).result? = none := by
  intro most
  refine ⟨callsSubsets_subsets (by decide) [0] 1 most true, fun κ k => ?_, rfl⟩
  exact subsets_of_capacity_lt (by decide) [0] true k

/-- The empty subset comes last, and there are no larger ones than the two included items make. -/
example :
    (Visit.outcome (fun k => Visit.subsets [3, 1, 2] [1, 3] 0 (some 5) true fun c l => k (c, l)) .all
      {}).seen = #[([3], [1, 2]), ([1], [3, 2]), ([3, 1], [2]), ([], [3, 1, 2])] := rfl

end Search

end TermRewriting
