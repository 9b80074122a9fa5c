import TermRewriting.Proofs.Compile
import TermRewriting.Proofs.Flat.Replacement
import TermRewriting.Proofs.Matching.Kept

/-! Rules that replace what they match by the name of it. A pattern's name is bound to the whole term
before the pattern is matched. Where the match leaves arguments of a flat application over, these are
then put around a term that has them already. -/

namespace TermRewriting

/-- The same term; if its head is flat, an application of it to the same arguments when nested
applications count as one, in any order if that does not count. -/
def Term.Unchanged (ev : Evaluator) (t result : Term) : Prop :=
  match t.head.symbol? with
  | some h =>
    if (ev.attributes h).flat then
      result.head = t.head ∧
        Rearranged (ev.attributes h).orderless (result.flattenUnder h) (t.flattenUnder h)
    else result = t
  | none => result = t

/-- Nothing is left over, or only empty nested applications of a flat head. -/
def Leftover.IsNothing (ev : Evaluator) (head : Term) (left : Leftover) : Prop :=
  match head.symbol? with
  | some h =>
    if (ev.attributes h).flat then Term.flattenAll h (left.before ++ left.after) = []
    else left.isEmpty = true
  | none => left.isEmpty = true

namespace Rule

def restored (t : Term) (left : Leftover) : Term := if left.isEmpty then t else surround t left t

section

variable {ev : Evaluator} {t : Term} {left : Leftover}

theorem head_restored (left : Leftover) : (restored t left).head = t.head := by
  unfold restored
  split <;> rfl

/-- An application with the term as an argument is another term. -/
theorem surround_ne (left : Leftover) (apart : t.isSequence = false) : surround t left t ≠ t := by
  intro eq
  cases t with
  | app head args =>
    have arguments : left.before ++ [.app head args] ++ left.after = args := by
      rw [← Term.items_eq_singleton apart]
      exact (Term.app.inj eq).2
    have member : .app head args ∈ left.before ++ [.app head args] ++ left.after := by simp
    rw [arguments] at member
    have smaller := List.sizeOf_lt_of_mem member
    simp only [Term.app.sizeOf_spec] at smaller
    omega
  | _ => cases eq

theorem flattenUnder_surround {h : String} (symbol : t.head.symbol? = some h)
    (apart : t.isSequence = false) :
    (surround t left t).flattenUnder h =
      Term.flattenAll h left.before ++ t.flattenUnder h ++ Term.flattenAll h left.after := by
  have head : t.head = .symbol h := by
    cases eq : t.head with
    | symbol name =>
      rw [eq] at symbol
      exact congrArg Term.symbol (Option.some.inj symbol)
    | _ => simp [eq, Term.symbol?] at symbol
  rw [surround, head, Term.flattenUnder_app_symbol, Term.items_eq_singleton apart]
  simp [Term.flattenAll]

/-- What is left over makes the difference. -/
theorem unchanged_restored_iff (apart : t.isSequence = false) :
    t.Unchanged ev (restored t left) ↔ left.IsNothing ev t.head := by
  unfold Term.Unchanged Leftover.IsNothing
  rw [head_restored]
  have plain : restored t left = t ↔ left.isEmpty = true := by
    unfold restored
    split
    · next nothing => simp [nothing]
    · next some => simp [some, surround_ne left apart]
  cases symbol : t.head.symbol? with
  | none => exact plain
  | some h =>
    by_cases flat : (ev.attributes h).flat = true
    · simp only [flat, if_true, true_and]
      unfold restored
      split
      · next nothing =>
        simp only [Leftover.isEmpty, Bool.and_eq_true, List.isEmpty_iff] at nothing
        simp [nothing, Term.flattenAll, Rearranged.refl]
      · rw [flattenUnder_surround symbol apart, Term.flattenAll_append, List.append_eq_nil_iff]
        constructor
        · intro order
          have length := order.perm.length_eq
          simp only [List.length_append] at length
          exact ⟨List.length_eq_zero_iff.mp (by omega), List.length_eq_zero_iff.mp (by omega)⟩
        · rintro ⟨before, after⟩
          simp [before, after, Rearranged.refl]
    · simp only [flat, Bool.false_eq_true, if_false]
      exact plain

end

/-- The rule that replaces what the pattern matches by a name for it. -/
def naming (x : String) (p : Pattern) (source : Term) : Rule := ⟨.named x p, source, .symbol x, false⟩

theorem make_naming (cell : Position) (x : String) {source : Term} {p : Pattern}
    (compiled : Pattern.compileAt (2 :: cell) source = .ok p) :
    make cell (.call "Pattern" [.symbol x, source]) (.symbol x) false =
      .ok (naming x p (.call "Pattern" [.symbol x, source])) := by
  rw [make, show Pattern.compileAt cell (.call "Pattern" [.symbol x, source]) =
    (Pattern.compileAt (2 :: cell) source).map (.named x) from rfl, compiled]
  rfl

section

variable {ev : Evaluator} {t : Term} {x : String} {p : Pattern}

/-- The matches of the pattern in part, after the name has been bound to the term. -/
def partialMatches (ev : Evaluator) (x : String) (p : Pattern) (t : Term) (j : Journal) : List Match :=
  ((p.search ev { whole := false } t (.bind .empty x t)).answers j).1

def takesSome (t : Term) (m : Match) : Bool := m.left.isEmpty || m.left.size != t.args.length

theorem result?_naming {source : Term} {m : Match} (bound : m.bindings.get? x = some t) :
    (naming x p source).result? ev t m =
      if takesSome t m then some (restored t m.left) else none := by
  have filled : (Term.symbol x).substitute m.bindings = t := by
    rw [Term.substitute, bound]
    rfl
  have takesNone : (!m.left.isEmpty && m.left.size == t.args.length) = !takesSome t m := by
    simp [takesSome, bne]
  rw [result?, takesNone]
  cases takesSome t m <;> simp [naming, filled, restored]

/-- The rule yields what the first match makes of the term that takes some of its arguments. -/
theorem apply_naming (other : x ∉ p.names) (unmarked : Bindings.optionOf? x = none)
    (apart : t.isSequence = false) (source : Term) (j : Journal) :
    ((naming x p source).apply ev t false j).1 =
      ((partialMatches ev x p t j).find? (takesSome t)).map fun m => restored t m.left := by
  have required : Pattern.valueOf ev p none t = .one t := by
    have nonempty : t.isEmptySequence = false := by
      simp [Term.isEmptySequence, Term.isCallWith, show t.isCall "Sequence" = false from apart]
    unfold Pattern.valueOf
    split <;> simp [nonempty]
  have searched : (naming x p source).lhs.search ev { whole := false } t .empty =
      p.search ev { whole := false } t (.bind .empty x t) := by
    rw [naming, Pattern.search, required, Search.one_bind]
    rfl
  have produced : (partialMatches ev x p t j).filterMap ((naming x p source).result? ev t) =
      (partialMatches ev x p t j).filterMap
        (Option.map (fun m => restored t m.left) ∘ Option.guard (takesSome t)) := by
    refine List.filterMap_congr fun m found => ?_
    have kept := (Pattern.keeps_search p (.get? other unmarked) { whole := false } t
      (.bind .empty x t)).answers j m found
    rw [Bindings.get?_bind, if_pos rfl] at kept
    rw [result?_naming kept]
    cases takes : takesSome t m <;> simp [Option.guard, takes]
  rw [apply_eq, Search.first?_eq_head?, results, searched, Search.answers_bind_ofOption]
  rw [show ((p.search ev { whole := false } t (.bind .empty x t)).answers j).1 =
    partialMatches ev x p t j from rfl, produced, List.head?_filterMap, ← List.map_findSome?,
    List.findSome?_guard]

end

/-- A pattern that is named by a symbol that does not occur in it, and replaced by the name: what it
matches comes out unchanged if and only if the match leaves nothing over. Otherwise the arguments left
over are in the result twice, once within the term and once beside it. -/
theorem unchanged_apply_iff {x : String} {source : Term} {p : Pattern} {cell : Position}
    (absent : source.every (!·.isSymbol x) = true) (unmarked : Bindings.optionOf? x = none)
    (compiled : Pattern.compileAt (2 :: cell) source = .ok p) :
    ∃ r, make cell (.call "Pattern" [.symbol x, source]) (.symbol x) false = .ok r ∧
      ∀ ev t, t.isSequence = false → ∀ j,
        (r.apply ev t false j).1 =
            ((partialMatches ev x p t j).find? (takesSome t)).map (fun m => restored t m.left) ∧
          ((∀ result, (r.apply ev t false j).1 = some result → t.Unchanged ev result) ↔
            ∀ m, (partialMatches ev x p t j).find? (takesSome t) = some m →
              m.left.IsNothing ev t.head) := by
  have other := Pattern.not_mem_names_of_compileAt absent compiled
  refine ⟨_, make_naming cell x compiled, fun ev t apart j => ?_⟩
  have applied : ((naming x p (.call "Pattern" [.symbol x, source])).apply ev t false j).1 = _ :=
    apply_naming other unmarked apart _ j
  refine ⟨applied, ?_⟩
  rw [applied]
  cases (partialMatches ev x p t j).find? (takesSome t) with
  | none => simp
  | some m =>
    simp only [Option.map_some, Option.some.injEq, forall_eq']
    exact unchanged_restored_iff apart

/-- Naming a sum of two terms. -/
theorem unchanged_apply_iff_sum :
    ∃ r, make [] (.call "Pattern" [.symbol "x", .call "Plus" [.symbol "a", .symbol "b"]]) (.symbol "x")
        false = .ok r ∧
      ∀ ev t, t.isSequence = false → ∀ j,
        (r.apply ev t false j).1 = ((partialMatches ev "x"
            (.compound (.literal (.symbol "Plus")) [.literal (.symbol "a"), .literal (.symbol "b")])
            t j).find? (takesSome t)).map (fun m => restored t m.left) ∧
          ((∀ result, (r.apply ev t false j).1 = some result → t.Unchanged ev result) ↔
            ∀ m, (partialMatches ev "x"
                (.compound (.literal (.symbol "Plus")) [.literal (.symbol "a"), .literal (.symbol "b")])
                t j).find? (takesSome t) = some m →
              m.left.IsNothing ev t.head) :=
  unchanged_apply_iff (by decide) (by decide) rfl

/-- Replacing `a + b`, named, by its name turns `a + b + c` into `(a + b + c) + c`. -/
theorem apply_naming_sum :
    ∃ r, make [] (.call "Pattern" [.symbol "x", .call "Plus" [.symbol "a", .symbol "b"]]) (.symbol "x")
        false = .ok r ∧
      (r.apply sums (.call "Plus" [.symbol "a", .symbol "b", .symbol "c"]) false {}).1 =
        some (.call "Plus" [.call "Plus" [.symbol "a", .symbol "b", .symbol "c"], .symbol "c"]) ∧
      ¬ (Term.call "Plus" [.symbol "a", .symbol "b", .symbol "c"]).Unchanged sums
        (.call "Plus" [.call "Plus" [.symbol "a", .symbol "b", .symbol "c"], .symbol "c"]) := by
  refine ⟨_, rfl, rfl, fun unchanged => ?_⟩
  have length := unchanged.2.perm.length_eq
  revert length
  decide

end Rule

end TermRewriting
