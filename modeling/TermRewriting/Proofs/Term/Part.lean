import TermRewriting.Term.Basic

/-! Parts of a term. A part is reached along a path of numbers from the root down: zero leads to the
head of an application, and the numbers from one on lead to its arguments. -/

namespace TermRewriting

abbrev Path := List Nat

namespace Term

def child? : Term → Nat → Option Term
  | .app head _, 0 => some head
  | .app _ args, n + 1 => args[n]?
  | _, _ => none

/-- The part along a path, if the path does not leave the term. -/
def part? : Term → Path → Option Term
  | t, [] => some t
  | t, n :: path => (t.child? n).bind fun u => part? u path

mutual

/-- The paths to all parts, or to those that are in no head. Every part comes after what is in it. -/
@[grind =]
def paths (heads : Bool) : Term → List Path
  | .app head args =>
    (if heads then (paths heads head).map (0 :: ·) else []) ++ pathsFrom heads 1 args ++ [[]]
  | _ => [[]]

@[grind =]
def pathsFrom (heads : Bool) (number : Nat) : List Term → List Path
  | [] => []
  | t :: ts => (paths heads t).map (number :: ·) ++ pathsFrom heads (number + 1) ts

end

variable {heads : Bool}

theorem nil_mem_paths (t : Term) : [] ∈ t.paths heads := by
  cases t <;> simp [paths]

theorem mem_pathsFrom {number : Nat} {ts : List Term} {path : Path} :
    path ∈ pathsFrom heads number ts ↔
      ∃ i inside, path = (number + i) :: inside ∧ ∃ t, ts[i]? = some t ∧ inside ∈ t.paths heads := by
  induction ts generalizing number with
  | nil => simp [pathsFrom]
  | cons t ts ih =>
    simp only [pathsFrom, List.mem_append, List.mem_map, ih]
    constructor
    · rintro (⟨inside, member, rfl⟩ | ⟨i, inside, rfl, u, found, member⟩)
      · exact ⟨0, inside, rfl, t, rfl, member⟩
      · exact ⟨i + 1, inside, by rw [Nat.add_right_comm, Nat.add_assoc], u, found, member⟩
    · rintro ⟨_ | i, inside, rfl, u, found, member⟩
      · obtain rfl := Option.some.inj found
        exact .inl ⟨inside, member, rfl⟩
      · exact .inr ⟨i, inside, by rw [Nat.add_right_comm, Nat.add_assoc], u, found, member⟩

theorem zero_cons_mem_paths {head : Term} {args : List Term} {path : Path} :
    0 :: path ∈ (app head args).paths heads ↔ heads = true ∧ path ∈ head.paths heads := by
  have apart (i : Nat) : 0 ≠ 1 + i := by omega
  cases heads <;> simp [paths, mem_pathsFrom, apart]

theorem succ_cons_mem_paths {head : Term} {args : List Term} {n : Nat} {path : Path} :
    (n + 1) :: path ∈ (app head args).paths heads ↔ ∃ t, args[n]? = some t ∧ path ∈ t.paths heads := by
  have inArgs : (n + 1) :: path ∈ (app head args).paths heads ↔ (n + 1) :: path ∈ pathsFrom heads 1 args := by
    cases heads <;> simp [paths]
  rw [inArgs, mem_pathsFrom, Nat.add_comm n]
  constructor
  · rintro ⟨i, inside, same, found⟩
    obtain ⟨number, rfl⟩ := List.cons.inj same
    exact Nat.add_left_cancel number ▸ found
  · exact fun found => ⟨n, path, rfl, found⟩

/-- The paths are those that do not leave the term, and if heads are left out, those that enter none. -/
theorem mem_paths {t : Term} {path : Path} :
    path ∈ t.paths heads ↔ (t.part? path).isSome = true ∧ (heads = true ∨ 0 ∉ path) := by
  induction t using Term.induct generalizing path with
  | app head args head_ih ih =>
    rcases path with _ | ⟨_ | n, path⟩
    · simp [nil_mem_paths, part?]
    · rw [zero_cons_mem_paths, head_ih]
      simp only [part?, child?, Option.bind_some, List.mem_cons_self, not_true_eq_false, or_false]
      exact ⟨fun h => ⟨h.2.1, h.1⟩, fun h => ⟨h.2, h.1, .inl h.2⟩⟩
    · have enters : 0 ∉ (n + 1) :: path ↔ 0 ∉ path := by simp
      rw [succ_cons_mem_paths, part?, child?, enters]
      cases found : args[n]? with
      | none => simp
      | some t => simp [ih t (List.mem_of_getElem? found)]
  | _ => cases path <;> simp [paths, part?, child?]

/-- A part comes before whatever it is in, and only once. -/
theorem pairwise_paths (t : Term) : (t.paths heads).Pairwise fun path later => ¬path <+: later := by
  have numbered {n : Nat} {paths : List Path} (h : paths.Pairwise fun path later => ¬path <+: later) :
      (paths.map (n :: ·)).Pairwise fun path later => ¬path <+: later := by
    simpa [List.pairwise_map] using h
  have inArgs {ts : List Term} (each : ∀ t ∈ ts, (t.paths heads).Pairwise fun path later => ¬path <+: later)
      (number : Nat) : (pathsFrom heads number ts).Pairwise fun path later => ¬path <+: later := by
    induction ts generalizing number with
    | nil => exact .nil
    | cons t ts ih =>
      have rest := ih (fun u member => each u (by simp [member])) (number + 1)
      refine List.pairwise_append.mpr ⟨numbered (each t (by simp)), rest, ?_⟩
      intro path member later elsewhere
      obtain ⟨inside, -, rfl⟩ := List.mem_map.mp member
      obtain ⟨i, other, rfl, -⟩ := mem_pathsFrom.mp elsewhere
      simp only [List.cons_prefix_cons, not_and]
      omega
  induction t using Term.induct with
  | app head args head_ih ih =>
    have below : ∀ path ∈ (if heads then (paths heads head).map (0 :: ·) else []) ++ pathsFrom heads 1 args,
        path ≠ [] := by
      intro path member
      rcases List.mem_append.mp member with inHead | inside
      · split at inHead
        · obtain ⟨_, -, rfl⟩ := List.mem_map.mp inHead
          simp
        · cases inHead
      · obtain ⟨i, _, rfl, -⟩ := mem_pathsFrom.mp inside
        simp
    refine List.pairwise_append.mpr
      ⟨List.pairwise_append.mpr ⟨?_, inArgs ih 1, ?_⟩, List.pairwise_singleton .., ?_⟩
    · split
      · exact numbered head_ih
      · exact .nil
    · intro path inHead later inside
      obtain ⟨i, other, rfl, -⟩ := mem_pathsFrom.mp inside
      split at inHead
      · obtain ⟨_, -, rfl⟩ := List.mem_map.mp inHead
        simp only [List.cons_prefix_cons, not_and]
        omega
      · cases inHead
    · intro path member later root
      rw [List.mem_singleton.mp root, List.prefix_nil]
      exact below path member
  | _ => exact List.pairwise_singleton ..

end Term

end TermRewriting
