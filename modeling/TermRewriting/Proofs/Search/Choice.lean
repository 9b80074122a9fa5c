import Mathlib.Data.List.InsertIdx
import TermRewriting.Proofs.Search.All

/-! Choices by position. What is visited for a list of positions are the choices from the list, and
the choices from a list of terms are those from their positions. -/

namespace TermRewriting

namespace Split

variable {α β : Type}

def map (f : α → β) (s : Split α) : Split β := ⟨s.before.map f, s.chosen.map f, s.after.map f⟩

end Split

namespace Search

variable {α β κ : Type}

theorem sizes_eq_nil {all least : Nat} {most : Option Nat} (h : largest all most < least)
    (shortestFirst : Bool) : sizes all least most shortestFirst = [] := by
  have : largest all most + 1 - least = 0 := by omega
  simp [sizes, this]

theorem mem_sizes {all least size : Nat} {most : Option Nat} {shortestFirst : Bool} :
    size ∈ sizes all least most shortestFirst ↔ least ≤ size ∧ size ≤ largest all most := by
  cases shortestFirst <;> simp [sizes, List.mem_range'_1] <;> omega

theorem sizes_nodup (all least : Nat) (most : Option Nat) (shortestFirst : Bool) :
    (sizes all least most shortestFirst).Nodup := by
  have ascending : (List.range' least (largest all most + 1 - least)).Nodup := List.nodup_range'
  cases shortestFirst with
  | true => exact ascending
  | false => exact (List.reverse_perm _).nodup_iff.mpr ascending

theorem le_largest {all size : Nat} {most : Option Nat} :
    size ≤ largest all most ↔ size ≤ all ∧ most.all (size ≤ ·) := by
  cases most with
  | none => simp [largest]
  | some most => simpa only [largest, Option.elim_some, Option.all_some, decide_eq_true_eq] using Nat.le_min

theorem visit_runs (xs : List α) (least : Nat) (most : Option Nat) (anyStart shortestFirst : Bool)
    (k : Split α → Visit κ) :
    (runs xs least most anyStart shortestFirst).visit k =
      Visit.runs xs least most anyStart shortestFirst fun chosen before after =>
        k ⟨before, chosen, after⟩ := by
  simp only [runs, Visit.runs, visit_bind, visit_ofList, visit_map]
  by_cases h : largest xs.length most < least
  · simp [sizes_eq_nil h, h, Visit.each_proceed]
  · simp [sizes, h]

theorem runs_map (f : α → β) (xs : List α) (least : Nat) (most : Option Nat)
    (anyStart shortestFirst : Bool) :
    runs (xs.map f) least most anyStart shortestFirst =
      (runs xs least most anyStart shortestFirst).map (Split.map f) := by
  simp [runs, map_eq_bind, bind_assoc, one_bind, Split.map, List.map_take, List.map_drop]

theorem choose_map (f : α → β) (fits : β → Bool) (xs : List α) (n : Nat) :
    choose fits (xs.map f) n =
      (choose (fun x => fits (f x)) xs n).map fun (chosen, rest) => (chosen.map f, rest.map f) := by
  induction xs generalizing n with
  | nil => cases n <;> simp [choose, map_eq_bind, one_bind, Search.bind]
  | cons x xs ih =>
    cases n with
    | zero => simp [choose, map_eq_bind, one_bind]
    | succ n =>
      by_cases few : xs.length < n
      · simp [choose, few, map_eq_bind, Search.bind]
      · by_cases h : fits (f x) <;>
          simp [choose, few, h, ih, map_eq_bind, bind_assoc, append_bind, one_bind, Search.bind]

theorem choose_congr {fits fits' : α → Bool} {xs : List α} (h : ∀ x ∈ xs, fits x = fits' x) (n : Nat) :
    choose fits xs n = choose fits' xs n := by
  induction xs generalizing n with
  | nil => cases n <;> rfl
  | cons x xs ih =>
    cases n with
    | zero => rfl
    | succ n => simp only [choose, h x (by simp), ih fun y member => h y (by simp [member])]

theorem choose_of_length_lt (fits : α → Bool) {xs : List α} {n : Nat} (h : xs.length < n) :
    choose fits xs n = .done := by
  cases xs with
  | nil => cases n with
    | zero => simp at h
    | succ n => rfl
  | cons x xs => cases n with
    | zero => simp at h
    | succ n => simp only [List.length_cons] at h; simp [choose, show xs.length < n by omega]

theorem choose_length (fits : α → Bool) (xs : List α) :
    choose fits xs xs.length = if xs.all fits then one (xs, []) else .done := by
  induction xs with
  | nil => rfl
  | cons x xs ih =>
    have tooMany : choose fits xs (xs.length + 1) = .done := choose_of_length_lt _ (by omega)
    by_cases h : fits x <;> by_cases all : xs.all fits <;>
      simp [choose, ih, tooMany, h, all, map_eq_bind, one_bind, Search.bind, append_done]

/-- Choosing hands over the choices behind what was chosen and skipped before, and leaves both as they
were. -/
theorem restores_choose [BEq α] (included : List α) (k : (chosen left : List α) → Visit κ)
    (rest : List α) (count : Nat) (s : Visit.Stacks α) :
    Visit.Restores s (Visit.choose included k rest count)
      ((choose included.contains rest count).visit fun (c, r) => k (s.chosen ++ c) (s.skipped ++ r)) := by
  induction rest generalizing s count with
  | nil =>
    cases count with
    | zero => simpa [Visit.choose, choose] using Visit.restores_reading _
    | succ n => exact Visit.restores_proceed
  | cons x rest ih =>
    cases count with
    | zero => simpa [Visit.choose, choose] using Visit.restores_reading _
    | succ n =>
      rw [Visit.choose]
      by_cases few : rest.length < n
      · simpa [choose, few] using Visit.restores_proceed
      by_cases all : rest.length = n
      · have whole := choose_length included.contains (x :: rest)
        rw [List.length_cons, all] at whole
        rw [if_neg few, if_pos all, whole]
        split
        · simpa using Visit.restores_reading _
        · exact Visit.restores_proceed
      · have put : Visit.Restores s
            (.during (·.choose x) (·.unchoose) (Visit.choose included k rest n)) _ :=
          (ih n (s.choose x)).during (by simp [Visit.Stacks.choose, Visit.Stacks.unchoose])
        have skip : Visit.Restores s
            (.during (·.skip x) (·.unskip) (Visit.choose included k rest (n + 1))) _ :=
          (ih (n + 1) (s.skip x)).during (by simp [Visit.Stacks.skip, Visit.Stacks.unskip])
        rw [if_neg few, if_neg all]
        by_cases here : included.contains x
        · simpa [choose, few, here, Visit.Stacks.choose, Visit.Stacks.skip] using put.andThen skip
        · simpa [choose, few, here, Visit.Stacks.skip] using skip

theorem range'_filter_le (start count bound : Nat) :
    (List.range' start count).filter (· ≤ bound) =
      List.range' start (min count (bound + 1 - start)) := by
  induction count generalizing start with
  | zero => simp
  | succ count ih =>
    by_cases h : start ≤ bound
    · have : min (count + 1) (bound + 1 - start) = min count (bound + 1 - (start + 1)) + 1 := by omega
      simp [List.range'_succ, h, ih, this]
    · have this : min (count + 1) (bound + 1 - start) = 0 := by omega
      have later : min count (bound + 1 - (start + 1)) = 0 := by omega
      rw [List.range'_succ, List.filter_cons_of_neg (by simpa using h), ih, this, later]
      simp

end Search

namespace Visit

variable {α κ : Type}

theorem each_filter {as : List α} {k : α → Visit κ} (keep : α → Bool)
    (h : ∀ a ∈ as, keep a = false → k a = proceed) : each as k = each (as.filter keep) k := by
  induction as with
  | nil => rfl
  | cons a as ih =>
    have later := ih fun b hb => h b (by simp [hb])
    by_cases keeps : keep a
    · simp [keeps, later]
    · simp [keeps, later, h a (by simp) (by simpa using keeps)]

theorem filter_ne_zero {counts : List Nat} (h : 0 ∉ counts) : counts.filter (· != 0) = counts := by
  simp only [List.filter_eq_self, bne_iff_ne]
  exact fun n member eq => h (eq ▸ member)

theorem filter_eq_zero {counts : List Nat} (h : 0 ∉ counts) : counts.filter (· == 0) = [] := by
  simp only [List.filter_eq_nil_iff, beq_iff_eq]
  exact fun n member eq => h (eq ▸ member)

theorem zeroLast_eq_self {counts : List Nat} (h : counts.head? ≠ some 0) :
    zeroLast counts = counts := if_neg h

theorem zeroLast_cons_zero (counts : List Nat) : zeroLast (0 :: counts) = counts ++ [0] := by
  cases counts <;> simp [zeroLast, List.rotateLeft]

/-- The empty subset comes last, whichever sizes come first. -/
theorem zeroLast_range' (least count : Nat) (shortestFirst : Bool) :
    let ascending := List.range' least count
    let counts := if shortestFirst then ascending else ascending.reverse
    zeroLast counts = counts.filter (· != 0) ++ counts.filter (· == 0) := by
  have later (start n : Nat) : 0 ∉ List.range' (start + 1) n := by simp [List.mem_range'_1]
  have noHead {counts : List Nat} (h : 0 ∉ counts) : counts.head? ≠ some 0 :=
    fun first => h (List.mem_of_mem_head? first)
  match least, count with
  | least + 1, count =>
    have pos := later least count
    have back : 0 ∉ (List.range' (least + 1) count).reverse := by simp
    cases shortestFirst with
    | true =>
      simp only [if_true, zeroLast_eq_self (noHead pos), filter_ne_zero pos, filter_eq_zero pos,
        List.append_nil]
    | false =>
      simp only [Bool.false_eq_true, if_false, zeroLast_eq_self (noHead back), filter_ne_zero back,
        filter_eq_zero back, List.append_nil]
  | 0, 0 => simp [zeroLast]
  | 0, 1 => cases shortestFirst <;> rfl
  | 0, count + 2 =>
    have pos := later 0 (count + 1)
    have back : 0 ∉ (List.range' 1 (count + 1)).reverse := by simp
    cases shortestFirst with
    | true =>
      simp only [if_true, List.range'_succ (s := 0), zeroLast_cons_zero]
      simp [filter_ne_zero pos, filter_eq_zero pos]
    | false =>
      simp only [Bool.false_eq_true, if_false, List.range'_succ (s := 0), List.reverse_cons]
      rw [zeroLast_eq_self]
      · simp [filter_ne_zero back, filter_eq_zero back]
      · simp [List.head?_append, List.getLast?_range']

end Visit

namespace Search

variable {α β κ : Type}

theorem filter_le_sizes (all least most : Nat) (shortestFirst : Bool) :
    let ascending := List.range' least (most + 1 - least)
    (if shortestFirst then ascending else ascending.reverse).filter (· ≤ all) =
      sizes all least (some most) shortestFirst := by
  have count : min (most + 1 - least) (all + 1 - least) = largest all (some most) + 1 - least := by
    simp only [largest, Option.elim]
    omega
  cases shortestFirst <;>
    simp [sizes, List.filter_reverse, range'_filter_le, count]

theorem sizes_some (all least : Nat) (most : Option Nat) (shortestFirst : Bool) :
    sizes all least (some (min (most.getD all) all)) shortestFirst = sizes all least most shortestFirst := by
  have same : largest all (some (min (most.getD all) all)) = largest all most := by
    cases most <;> simp only [largest, Option.getD, Option.elim] <;> omega
  simp only [sizes, same]

theorem sizes_some_getD (all least : Nat) (most : Option Nat) (shortestFirst : Bool) :
    sizes all least (some (most.getD all)) shortestFirst = sizes all least most shortestFirst := by
  cases most with
  | none => simp [sizes, largest]
  | some most => rfl

theorem visit_subsetsSized [BEq α] (xs included : List α) (least most : Nat) (shortestFirst : Bool)
    (k : (chosen left : List α) → Visit κ) :
    Visit.subsetsSized xs included least most shortestFirst k =
      let sizes := sizes xs.length least (some most) shortestFirst
      .each (sizes.filter (· != 0) ++ sizes.filter (· == 0)) fun size =>
        (choose included.contains xs size).visit fun (chosen, left) => k chosen left := by
  have chosen (count : Nat) : Visit.startingWith {} (Visit.choose included k xs count) =
      (choose included.contains xs count).visit fun (c, r) => k c r :=
    (restores_choose included k xs count {}).startingWith
  have tooMany (count : Nat) (h : decide (count ≤ xs.length) = false) :
      Visit.startingWith {} (Visit.choose included k xs count) = .proceed := by
    rw [chosen, choose_of_length_lt _ (by simpa using h), visit_done]
  simp only [Visit.subsetsSized]
  rw [Visit.zeroLast_range', ← filter_le_sizes, Visit.each_filter (· ≤ xs.length) fun n _ => tooMany n,
    List.filter_append, List.filter_filter, List.filter_filter, List.filter_filter, List.filter_filter]
  simp only [Bool.and_comm, chosen]

theorem visit_subsets [BEq α] (xs included : List α) (least : Nat) (most : Option Nat) (shortestFirst : Bool)
    (k : (chosen left : List α) → Visit κ) :
    Visit.subsets xs included least most shortestFirst k =
      (subsets included.contains xs least most shortestFirst).visit fun split =>
        k split.chosen split.after := by
  simp only [Visit.subsets, subsets, visit_subsetsSized, sizes_some, sizes_some_getD, listing]
  split
  · next empty =>
    have none : largest xs.length most < least := by
      cases most with
      | none => exact empty
      | some most => exact Nat.lt_of_le_of_lt (Nat.min_le_right ..) empty
    have few : ¬capacity < most.getD xs.length + 1 - least := by omega
    rw [if_neg few, sizes_eq_nil none]
    rfl
  · split <;> simp only [visit, visit_bind, visit_ofList, visit_map]

theorem forall₂_picks (xs : List α) :
    List.Forall₂ (fun i (x, rest) => xs[i]? = some x ∧ xs.eraseIdx i = rest) (List.range xs.length)
      (picks xs) := by
  induction xs with
  | nil => exact .nil
  | cons x xs ih =>
    rw [List.length_cons, List.range_succ_eq_map, picks]
    refine .cons ⟨rfl, rfl⟩ (List.forall₂_map_left_iff.mpr (List.forall₂_map_right_iff.mpr ?_))
    exact ih.imp fun i (y, rest) ⟨here, others⟩ => ⟨here, congrArg (x :: ·) others⟩

theorem restores_placing {s : Visit.Arranging α} {i : Nat} {x : α} (here : s.pool[i]? = some x)
    {part : Visit (Visit.Arranging α × κ)} {w : Visit κ} (h : Visit.Restores (s.place i x) part w) :
    Visit.Restores s (Visit.placing i part) w := by
  have undone : (s.place i x).unplace i x = s := by
    obtain ⟨bound, rfl⟩ := List.getElem?_eq_some_iff.mp here
    simp [Visit.Arranging.place, Visit.Arranging.unplace, List.insertIdx_eraseIdx_getElem bound]
  have placed : Visit.Restores s (.during (·.place i x) (·.unplace i x) part) w := h.during undone
  intro j kept
  simp only [Visit.placing, here]
  exact placed j kept

/-- Arranging a whole pool hands over its arrangements behind what was arranged before, and leaves
both as they were. -/
theorem restores_arrangements (k : List α → Visit κ) {n : Nat} (s : Visit.Arranging α)
    (count : s.pool.length = n) :
    Visit.Restores s (Visit.arrangements k n)
      ((arrangements n s.pool).visit fun xs => k (s.arranged ++ xs)) := by
  induction n generalizing s with
  | zero => simpa [Visit.arrangements, arrangements] using Visit.restores_reading _
  | succ n ih =>
    rw [Visit.arrangements, arrangements, visit_bind, visit_ofList, ← count]
    refine Visit.restores_each ((forall₂_picks s.pool).imp fun i (x, rest) ⟨here, others⟩ => ?_)
    refine restores_placing here ?_
    have fewer : (s.place i x).pool.length = n := by
      obtain ⟨bound, -⟩ := List.getElem?_eq_some_iff.mp here
      simp only [Visit.Arranging.place, List.length_eraseIdx_of_lt bound, count, Nat.add_sub_cancel]
    simpa [Visit.Arranging.place, others] using ih (s.place i x) fewer

theorem visit_permutations (xs : List α) (k : List α → Visit κ) :
    Visit.permutations xs k = (permutations xs).visit k :=
  (restores_arrangements k ⟨xs, []⟩ rfl).startingWith

theorem all_subsets_before (fits : α → Bool) (xs : List α) (least : Nat) (most : Option Nat)
    (shortestFirst : Bool) :
    All (fun split => split.before = []) (subsets fits xs least most shortestFirst) := by
  simp only [subsets, all_listing, all_bind, all_map]
  exact all_of_forall _ fun size => all_of_forall _ fun _ => trivial

theorem all_runs_before (xs : List α) (least : Nat) (most : Option Nat) (shortestFirst : Bool) :
    All (fun split => split.before = []) (runs xs least most false shortestFirst) := by
  simp only [runs, Bool.false_eq_true, if_false, List.range_one, all_bind, all_map, all_ofList]
  intro start member size _
  simp_all

theorem subsets_congr {fits fits' : α → Bool} {xs : List α} (h : ∀ x ∈ xs, fits x = fits' x)
    (least : Nat) (most : Option Nat) (shortestFirst : Bool) :
    subsets fits xs least most shortestFirst = subsets fits' xs least most shortestFirst := by
  simp only [subsets, choose_congr h]

theorem picks_map (f : α → β) (xs : List α) :
    picks (xs.map f) = (picks xs).map fun (x, rest) => (f x, rest.map f) := by
  induction xs with
  | nil => rfl
  | cons x xs ih => simp [picks, ih]

theorem ofList_map (f : α → β) (xs : List α) : ofList (xs.map f) = (ofList xs).map f := by
  induction xs with
  | nil => rfl
  | cons x xs ih => simp [ofList, Search.map, ih]

theorem arrangements_map (f : α → β) (n : Nat) (xs : List α) :
    arrangements n (xs.map f) = (arrangements n xs).map (List.map f) := by
  induction n generalizing xs with
  | zero => simp [arrangements, map_eq_bind, one_bind]
  | succ n ih =>
    simp [arrangements, picks_map, ofList_map, ih, map_eq_bind, bind_assoc, one_bind]

theorem permutations_map (f : α → β) (xs : List α) :
    permutations (xs.map f) = (permutations xs).map (List.map f) := by
  simp [permutations, arrangements_map]

theorem map_listing (f : α → β) (least most : Nat) (s : Search α) :
    (listing least most s).map f = listing least most (s.map f) := by
  unfold listing
  split <;> rfl

theorem subsets_map (f : α → β) (fits : β → Bool) (xs : List α) (least : Nat) (most : Option Nat)
    (shortestFirst : Bool) :
    subsets fits (xs.map f) least most shortestFirst =
      (subsets (fun x => fits (f x)) xs least most shortestFirst).map (Split.map f) := by
  rw [subsets, subsets, map_listing, List.length_map]
  simp [choose_map, map_eq_bind, bind_assoc, one_bind, Split.map]

end Search

end TermRewriting
