import TermRewriting.Arithmetic.Evaluation

/-! How sums and products combine their arguments. Those of nested applications are joined, the integers
among them become one, and the others follow in order. What comes out has an integer in front at most,
and combining it again changes nothing. -/

namespace TermRewriting.Arithmetic

def IsSorted (ts : List Term) : Prop := ts.Pairwise fun t u => ¬sortKey u < sortKey t

theorem sort_eq_mergeSort (ts : List Term) :
    sort ts = ts.mergeSort fun t u => !(sortKey u < sortKey t) := by
  have keyed := List.map_mergeSort (l := ts) (r := fun t u => !(sortKey u < sortKey t))
    (s := fun a b : String × Term => !(b.1 < a.1)) (f := fun t => (sortKey t, t)) fun _ _ _ _ => rfl
  rw [sort, ← keyed, List.map_map]
  exact List.map_id' _

theorem mem_sort {ts : List Term} {t : Term} : t ∈ sort ts ↔ t ∈ ts := by
  rw [sort_eq_mergeSort, List.mem_mergeSort]

theorem isSorted_sort (ts : List Term) : IsSorted (sort ts) := by
  rw [sort_eq_mergeSort]
  refine (List.pairwise_mergeSort ?_ ?_ ts).imp ?_
  · intro t u v first second
    simp only [Bool.not_eq_true', decide_eq_false_iff_not, String.not_lt] at first second ⊢
    exact String.le_trans first second
  · intro t u
    simp only [Bool.or_eq_true, Bool.not_eq_true', decide_eq_false_iff_not, String.not_lt]
    exact String.le_total _ _
  · intro t u le
    simpa only [Bool.not_eq_true', decide_eq_false_iff_not] using le

theorem sort_eq_self {ts : List Term} (h : IsSorted ts) : sort ts = ts := by
  rw [sort_eq_mergeSort]
  exact List.mergeSort_of_pairwise (h.imp fun le => by
    simpa only [Bool.not_eq_true', decide_eq_false_iff_not] using le)

/-- Its unit changes nothing. -/
def Fold.IsLawful (f : Fold) : Prop := ∀ n, f.op f.unit n = n

/-- The arguments, with those of nested applications in place of these. -/
def joined (f : Fold) (args : List Term) : List Term :=
  args.flatMap fun t => if t.isCall f.name then t.args else [t]

def total (f : Fold) (parts : List Term) : Int := (parts.filterMap Term.int?).foldl f.op f.unit

def others (parts : List Term) : List Term := sort (parts.filter (·.int?.isNone))

/-- The integer in front, unless it is the unit and not alone. -/
def numbered (f : Fold) (n : Int) (rest : List Term) : List Term :=
  if n ≠ f.unit || rest.isEmpty then .integer n :: rest else rest

/-- The integers combined to one, and behind it, in order, what remains. -/
def gathered (f : Fold) (parts : List Term) : List Term := numbered f (total f parts) (others parts)

def close (f : Fold) : List Term → Term
  | [t] => t
  | ts => .call f.name ts

theorem close_of_length_ne_one {f : Fold} {ts : List Term} (h : ts.length ≠ 1) : close f ts = .call f.name ts := by
  match ts with
  | [_] => exact absurd rfl h
  | [] | _ :: _ :: _ => rfl

theorem combine_eq (f : Fold) (args : List Term) : combine f args = close f (gathered f (joined f args)) :=
  rfl

theorem mem_joined {f : Fold} {args : List Term} {t : Term} (h : t ∈ joined f args) :
    (t ∈ args ∧ t.isCall f.name = false) ∨ ∃ u ∈ args, u.isCall f.name = true ∧ t ∈ u.args := by
  obtain ⟨u, member, inside⟩ := List.mem_flatMap.mp h
  split at inside
  · next nested => exact .inr ⟨u, member, nested, inside⟩
  · next single =>
    obtain rfl := List.mem_singleton.mp inside
    exact .inl ⟨member, Bool.eq_false_iff.mpr single⟩

theorem flatMap_eq_self {g : Term → List Term} {ts : List Term} (each : ∀ t ∈ ts, g t = [t]) :
    ts.flatMap g = ts := by
  induction ts with
  | nil => rfl
  | cons t ts ih =>
    rw [List.flatMap_cons, each t (by simp), ih fun u member => each u (by simp [member]), List.singleton_append]

theorem joined_eq_self {f : Fold} {args : List Term} (apart : ∀ t ∈ args, t.isCall f.name = false) :
    joined f args = args :=
  flatMap_eq_self fun t member => if_neg (Bool.eq_false_iff.mp (apart t member))

theorem mem_others {parts : List Term} {t : Term} : t ∈ others parts ↔ t ∈ parts ∧ t.int? = none := by
  rw [others, mem_sort, List.mem_filter, Option.isNone_iff_eq_none]

theorem isSorted_others (parts : List Term) : IsSorted (others parts) := isSorted_sort _

section

variable {f : Fold} {rest : List Term}

theorem mem_numbered {n : Int} {t : Term} (h : t ∈ numbered f n rest) : t = .integer n ∨ t ∈ rest := by
  unfold numbered at h
  split at h
  · exact List.mem_cons.mp h
  · exact .inr h

theorem mem_tail_numbered {n : Int} {t : Term} (h : t ∈ (numbered f n rest).tail) : t ∈ rest := by
  unfold numbered at h
  split at h
  · exact h
  · exact List.mem_of_mem_tail h

variable (noInteger : ∀ t ∈ rest, t.int? = none)

include noInteger

theorem total_numbered (lawful : f.IsLawful) (n : Int) : total f (numbered f n rest) = n := by
  have none : rest.filterMap Term.int? = [] := List.filterMap_eq_nil_iff.mpr noInteger
  unfold numbered
  split
  · change ((rest.filterMap Term.int?).foldl f.op (f.op f.unit n)) = n
    rw [none]
    exact lawful n
  · next hidden =>
    have unit : n = f.unit := by
      simp only [Bool.or_eq_true, decide_eq_true_eq, not_or, Decidable.not_not] at hidden
      exact hidden.1
    rw [total, none, unit]
    rfl

theorem others_numbered (sorted : IsSorted rest) (n : Int) : others (numbered f n rest) = rest := by
  have all : rest.filter (·.int?.isNone) = rest :=
    List.filter_eq_self.mpr fun t member => by rw [noInteger t member]; rfl
  have here : others rest = rest := by rw [others, all, sort_eq_self sorted]
  unfold numbered
  split
  · exact here
  · exact here

end

theorem mem_gathered {f : Fold} {parts : List Term} {t : Term} (h : t ∈ gathered f parts) :
    t ∈ parts ∨ ∃ n, t = .integer n := by
  rcases mem_numbered h with rfl | member
  · exact .inr ⟨_, rfl⟩
  · exact .inl (mem_others.mp member).1

/-- Only the first of them can be an integer. -/
theorem int?_none_of_mem_tail {f : Fold} {parts : List Term} {t : Term} (h : t ∈ (gathered f parts).tail) :
    t.int? = none := (mem_others.mp (mem_tail_numbered h)).2

theorem gathered_gathered {f : Fold} (lawful : f.IsLawful) (parts : List Term) :
    gathered f (gathered f parts) = gathered f parts := by
  have noInteger : ∀ t ∈ others parts, t.int? = none := fun t member => (mem_others.mp member).2
  rw [gathered, gathered, total_numbered noInteger lawful, others_numbered noInteger (isSorted_others parts)]

end TermRewriting.Arithmetic
