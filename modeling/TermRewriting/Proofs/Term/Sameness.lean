import TermRewriting.Proofs.Term.Part
import TermRewriting.Proofs.Term.Spelling

/-! The laws of sameness. Two terms are the same if they are equal in structure once every truth value
is spelled as a symbol. So sameness is symmetric and transitive, it follows from equality, and it does
not see that a part is replaced by one that is the same. Only terms with a NaN in them are not the
same as themselves. -/

namespace TermRewriting.Term

mutual

/-- The term with each truth value spelled as a symbol. -/
def symbolic : Term → Term
  | .boolean b => .symbol (truthName b)
  | .app head args => .app (symbolic head) (symbolicAll args)
  | t => t

def symbolicAll : List Term → List Term
  | [] => []
  | t :: ts => symbolic t :: symbolicAll ts

end

theorem symbolicAll_eq_map (ts : List Term) : symbolicAll ts = ts.map symbolic := by
  induction ts with
  | nil => rfl
  | cons t ts ih => simp [symbolicAll, ih]

theorem symbolic_app (head : Term) (args : List Term) :
    (app head args).symbolic = .app head.symbolic (args.map symbolic) := by
  rw [symbolic, symbolicAll_eq_map]

theorem isSymbolic_symbolic (t : Term) : t.symbolic.isSymbolic = true := by
  induction t using Term.induct with
  | app head args head_ih ih =>
    rw [symbolic_app, isSymbolic, every_app]
    exact ⟨rfl, head_ih, List.forall_mem_map.mpr ih⟩
  | _ => rfl

theorem canonical_symbolic (t : Term) : t.symbolic.canonical = t.canonical := by
  induction t using Term.induct with
  | app head args head_ih ih =>
    rw [symbolic_app, canonical_app, canonical_app, head_ih, List.map_map]
    exact congrArg _ (List.map_congr_left ih)
  | _ => rfl

theorem same_eq_beq_symbolic (t u : Term) : t.same u = (t.symbolic == u.symbolic) := by
  rw [← same_eq_beq_of_isSymbolic (isSymbolic_symbolic t) (isSymbolic_symbolic u)]
  exact same_congr (canonical_symbolic t).symm (canonical_symbolic u).symm

theorem isNumeric_of_canonical {t u : Term} (eq : t.canonical = u.canonical) : t.isNumeric = u.isNumeric :=
  eq_of_canonical isNumeric_canonical eq

theorem same_comm (t u : Term) : t.same u = u.same t := by
  have turned {t u : Term} (h : t.same u = true) : u.same t = true := by
    obtain ⟨numeric, eq⟩ := same_iff.mp h
    exact same_iff.mpr ⟨isNumeric_of_canonical eq ▸ numeric, eq.symm⟩
  rw [Bool.eq_iff_iff]
  exact ⟨turned, turned⟩

theorem same_trans {t u v : Term} (first : t.same u = true) (second : u.same v = true) :
    t.same v = true := by
  obtain ⟨numeric, eq⟩ := same_iff.mp first
  exact same_iff.mpr ⟨numeric, eq.trans (same_iff.mp second).2⟩

/-- What holds of every term in a term holds of its parts, those in heads with them. -/
theorem every_iff_part? {holds : Term → Bool} {t : Term} :
    t.every holds = true ↔ ∀ path u, t.part? path = some u → holds u = true := by
  induction t using Term.induct with
  | app head args head_ih ih =>
    rw [every_app, head_ih]
    constructor
    · rintro ⟨here, inHead, inArgs⟩ (_ | ⟨_ | n, path⟩) u found
      · exact Option.some.inj found ▸ here
      · exact inHead path u found
      · obtain ⟨a, arg, found⟩ := Option.bind_eq_some_iff.mp found
        have member : a ∈ args := List.mem_of_getElem? arg
        exact (ih a member).mp (inArgs a member) path u found
    · intro all
      refine ⟨all [] _ rfl, fun path u found => all (0 :: path) u found, fun a member => ?_⟩
      refine (ih a member).mpr fun path u found => ?_
      obtain ⟨n, arg⟩ := List.mem_iff_getElem?.mp member
      exact all ((n + 1) :: path) u (Option.bind_eq_some_iff.mpr ⟨a, arg, found⟩)
  | _ =>
    constructor
    · rintro here (_ | ⟨n, path⟩) u found
      · exact Option.some.inj found ▸ here
      · cases found
    · exact fun all => all [] _ rfl

theorem isNumeric_iff {t : Term} :
    t.isNumeric = true ↔ ∀ path x, t.part? path = some (.real x) → x.isNaN = false := by
  rw [isNumeric, every_iff_part?]
  constructor
  · intro all path x found
    simpa using all path _ found
  · intro all path u found
    cases u with
    | real x => simpa using all path x found
    | _ => rfl

theorem same_self_iff {t : Term} :
    t.same t = true ↔ ∀ path x, t.part? path = some (.real x) → x.isNaN = false := by
  rw [same_iff, ← isNumeric_iff]
  exact and_iff_left rfl

theorem sameAll_of_beqAll {xs ys : List Term} (each : ∀ x ∈ xs, ∀ y, (x == y) = true → x.same y = true)
    (h : beqAll xs ys = true) : sameAll xs ys = true := by
  induction xs generalizing ys with
  | nil => cases ys <;> simp_all [beqAll, sameAll]
  | cons x xs ih =>
    cases ys with
    | nil => simp [beqAll] at h
    | cons y ys =>
      obtain ⟨first, later⟩ := Bool.and_eq_true_iff.mp h
      refine Bool.and_eq_true_iff.mpr ⟨each x (by simp) y first, ?_⟩
      exact ih (fun x member => each x (by simp [member])) later

theorem same_of_beq {t u : Term} (h : (t == u) = true) : t.same u = true := by
  induction t using Term.induct generalizing u with
  | app head args head_ih ih =>
    cases u with
    | app head' args' =>
      obtain ⟨heads, arguments⟩ := Bool.and_eq_true_iff.mp h
      exact Bool.and_eq_true_iff.mpr
        ⟨head_ih heads, sameAll_of_beqAll (fun t member _ => ih t member) arguments⟩
    | _ => cases h
  | boolean b =>
    cases u with
    | boolean b' =>
      obtain rfl : b = b' := beq_iff_eq.mp h
      exact beq_self_eq_true (some b)
    | _ => cases h
  | _ =>
    cases u with
    | boolean => cases h
    | _ => exact h

/-- The term with another one in the place of the part along a path. -/
def withPart : Term → Path → Term → Term
  | _, [], new => new
  | .app head args, 0 :: path, new => .app (head.withPart path new) args
  | .app head args, (n + 1) :: path, new => .app head (args.modify n fun t => t.withPart path new)
  | t, _ :: _, _ => t

theorem canonical_withPart {t part new : Term} {path : Path} (found : t.part? path = some part)
    (eq : new.canonical = part.canonical) : (t.withPart path new).canonical = t.canonical := by
  induction path generalizing t with
  | nil =>
    obtain rfl := Option.some.inj found
    exact eq
  | cons n path ih =>
    obtain ⟨child, place, inside⟩ := Option.bind_eq_some_iff.mp found
    cases t with
    | app head args =>
      cases n with
      | zero =>
        obtain rfl := Option.some.inj place
        rw [withPart, canonical_app, canonical_app, ih inside]
      | succ n =>
        have arg : args[n]? = some child := place
        have inArgs : (args.modify n fun t => t.withPart path new).map canonical = args.map canonical := by
          rw [List.modify_eq_set, arg, Option.getD_some, List.map_set, ih inside]
          obtain ⟨bound, rfl⟩ := List.getElem?_eq_some_iff.mp arg
          rw [← List.map_set, List.set_getElem_self]
        rw [withPart, canonical_app, canonical_app, inArgs]
    | _ => cases place

theorem same_withPart {t part new : Term} {path : Path} (found : t.part? path = some part)
    (same : part.same new = true) (u : Term) : (t.withPart path new).same u = t.same u :=
  same_congr (canonical_withPart found (same_iff.mp same).2.symm) rfl

/-- Sameness is equality of structure once all truth values are spelled as symbols. It is symmetric and
transitive, a term is the same as itself exactly if no NaN is in it, terms that are equal in structure
are the same, and parts may be replaced by what is the same. -/
theorem same_upToSpelling :
    (∀ t u, same t u = (t.symbolic == u.symbolic)) ∧
    (∀ t u, same t u = same u t) ∧
    (∀ t u v, same t u = true → same u v = true → same t v = true) ∧
    (∀ t, same t t = true ↔ ∀ path x, t.part? path = some (.real x) → x.isNaN = false) ∧
    (∀ t u : Term, (t == u) = true → same t u = true) ∧
    ∀ t u part new path, t.part? path = some part → same part new = true →
      same (t.withPart path new) u = same t u :=
  ⟨same_eq_beq_symbolic, same_comm, fun _ _ _ => same_trans, fun _ => same_self_iff,
    fun _ _ => same_of_beq, fun _ u _ _ _ found same => same_withPart found same u⟩

/-- `f[true, 0.0]` and `f[True, -0.0]` are the same, and stay so when the first spells its argument as
the second does. -/
theorem same_upToSpelling_truth :
    let t := call "f" [.boolean true, .real ⟨0⟩]
    let u := call "f" [.symbol "True", .real ⟨0x8000000000000000⟩]
    t.part? [1] = some (.boolean true) ∧ same (.boolean true) (.symbol "True") = true ∧
      u.same t = true ∧ (t.withPart [1] (.symbol "True")).same u = true := by
  intro t u
  obtain ⟨spelling, comm, -, -, -, parts⟩ := same_upToSpelling
  have same : t.same u = true := (spelling t u).trans (by decide)
  exact ⟨rfl, rfl, (comm u t).trans same, (parts t u _ _ _ rfl rfl).trans same⟩

end TermRewriting.Term
