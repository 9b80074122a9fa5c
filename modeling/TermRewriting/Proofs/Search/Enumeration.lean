import TermRewriting.Proofs.Search.Choice
import TermRewriting.Proofs.Search.Values

/-! What the enumerations of choices contain: only choices of the items they are made from, and all
of them up to the order of the items. -/

namespace TermRewriting.Search

variable {α : Type}

theorem append_of_mem_runs {xs : List α} {least : Nat} {most : Option Nat}
    {anyStart shortestFirst : Bool} {split : Split α}
    (h : split ∈ (runs xs least most anyStart shortestFirst).values) :
    split.before ++ split.chosen ++ split.after = xs := by
  simp only [runs, values_bind, values_map, values_ofList, List.mem_flatMap, List.mem_map] at h
  obtain ⟨start, _, size, _, rfl⟩ := h
  rw [List.append_assoc, ← List.drop_drop, List.take_append_drop, List.take_append_drop]

theorem least_le_of_mem_runs {xs : List α} {least : Nat} {most : Option Nat}
    {anyStart shortestFirst : Bool} {split : Split α}
    (h : split ∈ (runs xs least most anyStart shortestFirst).values) : least ≤ split.chosen.length := by
  simp only [runs, values_bind, values_map, values_ofList, List.mem_flatMap, List.mem_map,
    List.mem_range] at h
  obtain ⟨start, early, size, sized, rfl⟩ := h
  obtain ⟨atLeast, atMost⟩ := mem_sizes.mp sized
  have within : largest xs.length most ≤ xs.length := (le_largest.mp (Nat.le_refl _)).1
  have fits : start + size ≤ xs.length := by
    split at early <;> omega
  rw [List.length_take, List.length_drop]
  omega

theorem before_of_mem_runs {xs : List α} {least : Nat} {most : Option Nat} {shortestFirst : Bool}
    {split : Split α} (h : split ∈ (runs xs least most false shortestFirst).values) :
    split.before = [] := by
  simp only [runs, values_bind, values_map, values_ofList, List.mem_flatMap, List.mem_map,
    Bool.false_eq_true, if_false, List.range_one, List.mem_singleton] at h
  obtain ⟨start, rfl, size, _, rfl⟩ := h
  rfl

theorem mem_runs_append {run later : List α} {least : Nat} {most : Option Nat}
    (atLeast : least ≤ run.length) (atMost : most.all (run.length ≤ ·))
    (anyStart shortestFirst : Bool) :
    ⟨[], run, later⟩ ∈ (runs (run ++ later) least most anyStart shortestFirst).values := by
  have sized : run.length ∈ sizes (run ++ later).length least most shortestFirst :=
    mem_sizes.mpr ⟨atLeast, le_largest.mpr ⟨by simp, atMost⟩⟩
  simp only [runs, values_bind, values_map, values_ofList, List.mem_flatMap, List.mem_map]
  refine ⟨0, ?_, run.length, sized, by simp⟩
  cases anyStart <;> simp

/-- A run at the front of a block is a run of all items, if one may begin where the block does. -/
theorem mem_runs_of_block {before block after : List α} {least : Nat} {most : Option Nat}
    {anyStart shortestFirst : Bool} {split : Split α}
    (h : split ∈ (runs block least most false shortestFirst).values)
    (start : before = [] ∨ anyStart = true ∧
      before.length + largest (before ++ block ++ after).length most ≤ (before ++ block ++ after).length) :
    ⟨before, split.chosen, split.after ++ after⟩ ∈
      (runs (before ++ block ++ after) least most anyStart shortestFirst).values := by
  simp only [runs, values_bind, values_map, values_ofList, List.mem_flatMap, List.mem_map,
    Bool.false_eq_true, if_false, List.range_one, List.mem_singleton] at h ⊢
  obtain ⟨_, rfl, size, sized, rfl⟩ := h
  obtain ⟨least, most⟩ := mem_sizes.mp sized
  obtain ⟨within, most⟩ := le_largest.mp most
  refine ⟨before.length, ?_, size, mem_sizes.mpr ⟨least, le_largest.mpr ⟨?_, most⟩⟩, ?_⟩
  · rcases start with rfl | ⟨free, fits⟩
    · cases anyStart <;> simp
    · rw [if_pos free, List.mem_range]
      omega
  · simp only [List.length_append]
    omega
  · simp [List.drop_append, List.take_append, List.append_assoc, Nat.sub_eq_zero_of_le within]

theorem mem_choose_zero {fits : α → Bool} {xs chosen rest : List α} :
    (chosen, rest) ∈ (choose fits xs 0).values ↔ chosen = [] ∧ rest = xs := by
  cases xs <;> simp [choose]

theorem mem_choose_succ {fits : α → Bool} {x : α} {xs chosen rest : List α} {n : Nat} :
    (chosen, rest) ∈ (choose fits (x :: xs) (n + 1)).values ↔ n ≤ xs.length ∧
      ((fits x = true ∧ ∃ later, (later, rest) ∈ (choose fits xs n).values ∧ x :: later = chosen) ∨
        ∃ later, (chosen, later) ∈ (choose fits xs (n + 1)).values ∧ x :: later = rest) := by
  simp only [choose, values_ite, values_done, values_append, values_map]
  by_cases few : xs.length < n
  · simp [few, Nat.not_le.mpr few]
  · by_cases here : fits x = true <;> simp [few, Nat.not_lt.mp few, here]

theorem perm_of_mem_choose {fits : α → Bool} {xs chosen rest : List α} {n : Nat}
    (h : (chosen, rest) ∈ (choose fits xs n).values) :
    (chosen ++ rest).Perm xs ∧ chosen.length = n ∧ rest.Sublist xs := by
  induction xs generalizing n chosen rest with
  | nil =>
    cases n with
    | zero =>
      obtain ⟨rfl, rfl⟩ := mem_choose_zero.mp h
      exact ⟨.refl _, rfl, .refl _⟩
    | succ n => simp [choose] at h
  | cons x xs ih =>
    cases n with
    | zero =>
      obtain ⟨rfl, rfl⟩ := mem_choose_zero.mp h
      exact ⟨.refl _, rfl, .refl _⟩
    | succ n =>
      obtain ⟨-, ⟨-, later, member, rfl⟩ | ⟨later, member, rfl⟩⟩ := mem_choose_succ.mp h
      · obtain ⟨perm, length, sub⟩ := ih member
        exact ⟨perm.cons x, by simp [length], sub.cons x⟩
      · obtain ⟨perm, length, sub⟩ := ih member
        exact ⟨List.perm_middle.trans (perm.cons x), length, sub.cons_cons x⟩

theorem sublist_of_mem_choose {fits : α → Bool} {xs chosen rest : List α} {n : Nat}
    (h : (chosen, rest) ∈ (choose fits xs n).values) :
    chosen.Sublist xs ∧ ∀ x ∈ chosen, fits x = true := by
  induction xs generalizing n chosen rest with
  | nil =>
    cases n with
    | zero =>
      obtain ⟨rfl, rfl⟩ := mem_choose_zero.mp h
      simp
    | succ n => simp [choose] at h
  | cons x xs ih =>
    cases n with
    | zero =>
      obtain ⟨rfl, rfl⟩ := mem_choose_zero.mp h
      simp
    | succ n =>
      obtain ⟨-, ⟨here, later, member, rfl⟩ | ⟨later, member, rfl⟩⟩ := mem_choose_succ.mp h
      · obtain ⟨sub, fit⟩ := ih member
        exact ⟨sub.cons_cons x, List.forall_mem_cons.mpr ⟨here, fit⟩⟩
      · obtain ⟨sub, fit⟩ := ih member
        exact ⟨sub.cons x, fit⟩

/-- What is chosen counts only in that all of it fits. -/
theorem mem_choose_of_fits {fits fits' : α → Bool} {xs chosen rest : List α} {n : Nat}
    (h : (chosen, rest) ∈ (choose fits xs n).values) (allFit : ∀ x ∈ chosen, fits' x = true) :
    (chosen, rest) ∈ (choose fits' xs n).values := by
  induction xs generalizing n chosen rest with
  | nil => cases n <;> exact h
  | cons x xs ih =>
    cases n with
    | zero => exact mem_choose_zero.mpr (mem_choose_zero.mp h)
    | succ n =>
      obtain ⟨enough, ⟨-, later, found, rfl⟩ | ⟨later, found, rfl⟩⟩ := mem_choose_succ.mp h
      · obtain ⟨here, allFit⟩ := List.forall_mem_cons.mp allFit
        exact mem_choose_succ.mpr ⟨enough, .inl ⟨here, later, ih found allFit, rfl⟩⟩
      · exact mem_choose_succ.mpr ⟨enough, .inr ⟨later, ih found allFit, rfl⟩⟩

/-- Whatever is put aside, some choice has the same items. -/
theorem mem_choose_of_perm {fits : α → Bool} {xs run later : List α}
    (perm : (run ++ later).Perm xs) (allFit : ∀ x ∈ run, fits x = true) :
    ∃ chosen rest, (chosen, rest) ∈ (choose fits xs run.length).values ∧ chosen.Perm run ∧
      rest.Perm later := by
  induction xs generalizing run later with
  | nil =>
    obtain ⟨rfl, rfl⟩ := List.append_eq_nil_iff.mp perm.eq_nil
    exact ⟨[], [], by simp [choose], .refl _, .refl _⟩
  | cons x xs ih =>
    by_cases empty : run = []
    · subst empty
      exact ⟨[], x :: xs, by simp [choose], .refl _, perm.symm⟩
    obtain ⟨n, length⟩ : ∃ n, run.length = n + 1 :=
      Nat.exists_eq_succ_of_ne_zero (by simpa using empty)
    have enough : n ≤ xs.length := by
      have := perm.length_eq
      simp only [List.length_append, List.length_cons] at this
      omega
    have member : x ∈ run ++ later := perm.mem_iff.mpr (by simp)
    rcases List.mem_append.mp member with inRun | inLater
    · obtain ⟨front, back, rfl⟩ := List.append_of_mem inRun
      have others : ((front ++ back) ++ later).Perm xs := by
        refine ((List.Perm.append_right later List.perm_middle).symm.trans ?_).cons_inv (a := x)
        simpa using perm
      have fewer : (front ++ back).length = n := by
        simp only [List.length_append, List.length_cons] at length ⊢
        omega
      obtain ⟨chosen, rest, found, permChosen, permRest⟩ :=
        ih others fun y inOthers => allFit y (by simp at inOthers ⊢; tauto)
      rw [fewer] at found
      refine ⟨x :: chosen, rest, length ▸ mem_choose_succ.mpr ⟨enough, .inl ⟨allFit x inRun, chosen, found, rfl⟩⟩,
        (permChosen.cons x).trans List.perm_middle.symm, permRest⟩
    · obtain ⟨front, back, rfl⟩ := List.append_of_mem inLater
      have others : (run ++ (front ++ back)).Perm xs := by
        refine (((List.Perm.append_left run List.perm_middle).trans List.perm_middle).symm.trans
          perm).cons_inv (a := x)
      obtain ⟨chosen, rest, found, permChosen, permRest⟩ := ih others allFit
      rw [length] at found
      exact ⟨chosen, x :: rest, length ▸ mem_choose_succ.mpr ⟨enough, .inr ⟨rest, found, rfl⟩⟩, permChosen,
        (permRest.cons x).trans List.perm_middle.symm⟩

/-- What can be chosen from some items can be chosen from more, and leaves no less. -/
theorem mem_choose_of_sublist {fits : α → Bool} {xs ys chosen rest : List α} {n : Nat}
    (sub : xs.Sublist ys) (h : (chosen, rest) ∈ (choose fits xs n).values) :
    ∃ rest', (chosen, rest') ∈ (choose fits ys n).values ∧ rest.Sublist rest' := by
  induction sub generalizing n chosen rest with
  | slnil => exact ⟨rest, h, .refl rest⟩
  | @cons xs ys y sub ih =>
    obtain ⟨rest', found, more⟩ := ih h
    cases n with
    | zero =>
      obtain ⟨rfl, rfl⟩ := mem_choose_zero.mp h
      exact ⟨y :: ys, mem_choose_zero.mpr ⟨rfl, rfl⟩, sub.cons y⟩
    | succ n =>
      have enough : n ≤ ys.length := by
        obtain ⟨perm, length, -⟩ := perm_of_mem_choose found
        have := perm.length_eq
        rw [List.length_append] at this
        omega
      exact ⟨y :: rest', mem_choose_succ.mpr ⟨enough, .inr ⟨rest', found, rfl⟩⟩, more.cons y⟩
  | @cons_cons xs ys x sub ih =>
    cases n with
    | zero =>
      obtain ⟨rfl, rfl⟩ := mem_choose_zero.mp h
      exact ⟨x :: ys, mem_choose_zero.mpr ⟨rfl, rfl⟩, sub.cons_cons x⟩
    | succ n =>
      obtain ⟨enough, ⟨here, later, found, rfl⟩ | ⟨later, found, rfl⟩⟩ := mem_choose_succ.mp h
      · obtain ⟨rest', found, more⟩ := ih found
        exact ⟨rest', mem_choose_succ.mpr
          ⟨Nat.le_trans enough sub.length_le, .inl ⟨here, later, found, rfl⟩⟩, more⟩
      · obtain ⟨rest', found, more⟩ := ih found
        exact ⟨x :: rest', mem_choose_succ.mpr
          ⟨Nat.le_trans enough sub.length_le, .inr ⟨rest', found, rfl⟩⟩, more.cons_cons x⟩

/-- Choices of one size come in the lexicographic order that belongs to the order of the items. -/
theorem pairwise_choose {r : α → α → Prop} {fits : α → Bool} {xs : List α} (ordered : xs.Pairwise r)
    (n : Nat) : (choose fits xs n).values.Pairwise fun x y => List.Lex r x.1 y.1 := by
  induction xs generalizing n with
  | nil => cases n <;> simp [choose]
  | cons x xs ih =>
    obtain ⟨first, ordered⟩ := List.pairwise_cons.mp ordered
    cases n with
    | zero => simp [choose]
    | succ n =>
      simp only [choose, values_ite, values_done, values_append, values_map]
      split
      · exact .nil
      refine List.pairwise_append.mpr ⟨?_, ?_, ?_⟩
      · split
        · exact List.pairwise_map.mpr ((ih ordered n).imp .cons)
        · exact .nil
      · exact List.pairwise_map.mpr (ih ordered (n + 1))
      · intro taken inTaken left inLeft
        split at inTaken
        · obtain ⟨_, _, rfl⟩ := List.mem_map.mp inTaken
          obtain ⟨⟨chosen, rest⟩, member, rfl⟩ := List.mem_map.mp inLeft
          obtain ⟨-, length, -⟩ := perm_of_mem_choose member
          cases chosen with
          | nil => simp at length
          | cons y chosen =>
            exact .rel (first y ((sublist_of_mem_choose member).1.subset List.mem_cons_self))
        · simp at inTaken

theorem mem_subsets {fits : α → Bool} {xs : List α} {least : Nat} {most : Option Nat}
    {shortestFirst : Bool} {split : Split α} :
    split ∈ (subsets fits xs least most shortestFirst).values ↔
      ∃ size chosen rest, size ∈ sizes xs.length least most shortestFirst ∧
        (chosen, rest) ∈ (choose fits xs size).values ∧ split = ⟨[], chosen, rest⟩ := by
  have everySize (size : Nat) :
      size ∈ (sizes xs.length least most shortestFirst).filter (· != 0) ++
          (sizes xs.length least most shortestFirst).filter (· == 0) ↔
        size ∈ sizes xs.length least most shortestFirst := by
    by_cases zero : size = 0 <;> simp [zero]
  simp only [subsets, values_listing, values_bind, values_map, values_ofList, List.mem_flatMap,
    List.mem_map, Prod.exists, everySize]
  constructor
  · rintro ⟨size, sized, chosen, rest, found, rfl⟩
    exact ⟨size, chosen, rest, sized, found, rfl⟩
  · rintro ⟨size, chosen, rest, sized, found, rfl⟩
    exact ⟨size, sized, chosen, rest, found, rfl⟩

theorem mem_subsets_perm {fits : α → Bool} {xs ys : List α} (perm : xs.Perm ys) {least : Nat}
    {most : Option Nat} {shortestFirst : Bool} {split : Split α}
    (h : split ∈ (subsets fits xs least most shortestFirst).values) :
    ∃ split' ∈ (subsets fits ys least most shortestFirst).values,
      split'.chosen.Perm split.chosen ∧ split'.after.Perm split.after := by
  obtain ⟨size, chosen, rest, sized, found, rfl⟩ := mem_subsets.mp h
  obtain ⟨permItems, rfl, -⟩ := perm_of_mem_choose found
  obtain ⟨chosen', rest', found', permChosen, permRest⟩ :=
    mem_choose_of_perm (permItems.trans perm) (sublist_of_mem_choose found).2
  rw [perm.length_eq] at sized
  exact ⟨_, mem_subsets.mpr ⟨_, _, _, sized, found', rfl⟩, permChosen, permRest⟩

theorem mem_picks {xs rest : List α} {x : α} :
    (x, rest) ∈ picks xs ↔ ∃ front back, xs = front ++ x :: back ∧ rest = front ++ back := by
  induction xs generalizing x rest with
  | nil => simp [picks]
  | cons y xs ih =>
    simp only [picks, List.mem_cons, Prod.mk.injEq, List.mem_map, Prod.exists, ih]
    constructor
    · rintro (⟨rfl, rfl⟩ | ⟨_, _, ⟨front, back, rfl, rfl⟩, rfl, rfl⟩)
      · exact ⟨[], rest, rfl, rfl⟩
      · exact ⟨y :: front, back, rfl, rfl⟩
    · rintro ⟨front, back, eq, rfl⟩
      cases front with
      | nil =>
        obtain ⟨rfl, rfl⟩ := List.cons.inj eq
        exact .inl ⟨rfl, rfl⟩
      | cons z front =>
        obtain ⟨rfl, rfl⟩ := List.cons.inj eq
        exact .inr ⟨x, front ++ back, ⟨front, back, rfl, rfl⟩, rfl, rfl⟩

theorem mem_arrangements_length {n : Nat} {xs ys : List α} (length : xs.length = n) :
    ys ∈ (arrangements n xs).values ↔ ys.Perm xs := by
  induction n generalizing xs ys with
  | zero =>
    obtain rfl := List.length_eq_zero_iff.mp length
    simp [arrangements]
  | succ n ih =>
    simp only [arrangements, values_bind, values_map, values_ofList, List.mem_flatMap, List.mem_map,
      Prod.exists, mem_picks]
    constructor
    · rintro ⟨x, _, ⟨front, back, rfl, rfl⟩, later, found, rfl⟩
      have perm := (ih (by simp at length ⊢; omega)).mp found
      exact (perm.cons x).trans List.perm_middle.symm
    · intro perm
      cases ys with
      | nil => simp [← perm.length_eq] at length
      | cons x later =>
        obtain ⟨front, back, rfl⟩ := List.append_of_mem (perm.mem_iff.mp (List.mem_cons_self ..))
        have others : later.Perm (front ++ back) := (perm.trans List.perm_middle).cons_inv
        exact ⟨x, _, ⟨front, back, rfl, rfl⟩, later, (ih (by simp at length ⊢; omega)).mpr others, rfl⟩

theorem mem_permutations {xs ys : List α} : ys ∈ (permutations xs).values ↔ ys.Perm xs :=
  mem_arrangements_length rfl

end TermRewriting.Search
