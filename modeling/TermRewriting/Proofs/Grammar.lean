import TermRewriting.Proofs.Compile

/-! The grammar of patterns. A term can be read as a pattern exactly if every node in it that stands
where a pattern is expected is well formed. Otherwise what is reported is the fault of the first node
that is not: a node comes before its parts, the arguments of an application come before its head, and
the fallback of an exception comes before what it excludes. -/

namespace TermRewriting

namespace Construct

/-- Which parts of an application are patterns again, in the order in which they are read. The heads
of wildcards, literal contents, tests, guards, ranges and default values are none. -/
def inner {α : Type} (construct : Option Construct) (head : α) (args : List α) : List α :=
  match construct with
  | none => args ++ [head]
  | some .alternatives => args
  | some .except => args.reverse
  | some .named => args[1]?.toList
  | some .optional | some .hold | some .test | some .condition | some (.repeated _) => args.head?.toList
  | some (.wildcard _) | some .verbatim | some .options => []

theorem inner_map {α β : Type} (f : α → β) (construct : Option Construct) (head : α) (args : List α) :
    inner construct (f head) (args.map f) = (inner construct head args).map f := by
  cases construct with
  | none => simp [inner]
  | some c => cases c <;> simp [inner, Option.toList_map]

end Construct

namespace Pattern

mutual

/-- The nodes of a term that stand where a pattern is expected, in the order in which they are read. -/
def nodes : Term → List Term
  | .app head args =>
    .app head args :: (Construct.inner (Construct.ofHead? head) (nodes head) (nodesOfEach args)).flatten
  | t => [t]

def nodesOfEach : List Term → List (List Term)
  | [] => []
  | t :: ts => nodes t :: nodesOfEach ts

end

theorem nodesOfEach_eq_map (ts : List Term) : nodesOfEach ts = ts.map nodes := by
  induction ts with
  | nil => rfl
  | cons t ts ih => rw [nodesOfEach, ih, List.map_cons]

theorem nodes_app (head : Term) (args : List Term) :
    nodes (.app head args) =
      .app head args :: (Construct.inner (Construct.ofHead? head) head args).flatMap nodes := by
  rw [nodes, nodesOfEach_eq_map, Construct.inner_map, List.flatMap_def]

inductive IsRange : Term → Prop
  | upTo (n : Nat) : IsRange (.integer n)
  | exactly (n : Nat) : IsRange (.list [.integer n])
  | between {lo hi : Nat} : lo ≤ hi → IsRange (.list [.integer lo, .integer hi])
  | atLeast (lo : Nat) : IsRange (.list [.integer lo, .symbol "Infinity"])

/-- What a construct asks of its own arguments, whatever is in them. -/
structure Construct.Accepts (c : Construct) (args : List Term) : Prop where
  count : c.arity.admits args.length = true
  name : c = .named → ∃ x, args.head? = some (.symbol x)
  range : ∀ orNone, c = .repeated orNone → ∀ range, args[1]? = some range → IsRange range

/-- The node itself is well formed. Atoms are, and so is every application that is no construct. -/
def WellFormed : Term → Prop
  | .app head args => ∀ c, Construct.ofHead? head = some c → Construct.Accepts c args
  | _ => True

/-- What is reported about a node that is not well formed. -/
inductive Fault : Term → ReplacementError → Prop
  | count {head : Term} {args : List Term} {c : Construct} : Construct.ofHead? head = some c →
    c.arity.admits args.length = false →
      Fault (.app head args) (.patternArity c.name args.length c.arity)
  | name {head name inner : Term} : Construct.ofHead? head = some .named → name.symbol? = none →
    Fault (.app head [name, inner]) (.invalidPatternName (.app head [name, inner]))
  | range {head inner range : Term} {orNone : Bool} :
    Construct.ofHead? head = some (.repeated orNone) → ¬IsRange range →
      Fault (.app head [inner, range]) (.repeatedRange (.app head [inner, range]))

def fault? : Term → Option ReplacementError
  | .app head args =>
    match Construct.ofHead? head with
    | none => none
    | some c =>
      if c.arity.admits args.length then
        match c, args with
        | .named, [name, _] =>
          if name.symbol?.isSome then none else some (.invalidPatternName (.app head args))
        | .repeated _, [_, range] =>
          if (range? 0 range).isSome then none else some (.repeatedRange (.app head args))
        | _, _ => none
      else some (.patternArity c.name args.length c.arity)
  | _ => none

theorem count?_eq_some_iff {t : Term} {n : Nat} : count? t = some n ↔ t = .integer n := by
  cases t with
  | integer m =>
    simp only [count?, Term.int?, Option.bind_some, Option.ite_none_right_eq_some, Option.some.injEq,
      Term.integer.injEq]
    omega
  | _ => simp [count?, Term.int?]

theorem isRange_of_range? {least : Nat} {t : Term} {w : Width} (h : range? least t = some w) : IsRange t := by
  unfold range? at h
  split at h
  · next list =>
    rw [Term.eq_call_of_isCall list]
    split at h
    · next n args =>
      obtain ⟨n, number, -⟩ := Option.map_eq_some_iff.mp h
      rw [args, count?_eq_some_iff.mp number]
      exact .exactly n
    · next lo hi args =>
      obtain ⟨lo, number, h⟩ := Option.bind_eq_some_iff.mp h
      rw [args, count?_eq_some_iff.mp number]
      split at h
      · next infinity =>
        rw [Term.eq_symbol_of_isSymbol infinity]
        exact .atLeast lo
      · obtain ⟨hi, number, h⟩ := Option.bind_eq_some_iff.mp h
        rw [count?_eq_some_iff.mp number]
        split at h
        · next le => exact .between le
        · cases h
    · cases h
  · obtain ⟨n, number, -⟩ := Option.map_eq_some_iff.mp h
    exact count?_eq_some_iff.mp number ▸ .upTo n

theorem isSome_range?_iff (least : Nat) {t : Term} : (range? least t).isSome = true ↔ IsRange t := by
  constructor
  · intro some
    obtain ⟨w, eq⟩ := Option.isSome_iff_exists.mp some
    exact isRange_of_range? eq
  · intro isRange
    have number (n : Nat) : count? (.integer n) = some n := count?_eq_some_iff.mpr rfl
    cases isRange with
    | between le =>
      simp [range?, Term.list, Term.call, Term.isCall, Term.isSymbol, Term.symbol?, Term.args, number, le]
    | _ => simp [range?, Term.list, Term.call, Term.isCall, Term.isSymbol, Term.symbol?, Term.args, number]

theorem compileAt_of_fault {t : Term} {e : ReplacementError} (fault : Fault t e) (cell : Position) :
    compileAt cell t = .error e := by
  cases fault with
  | count construct wrong =>
    unfold compileAt
    rw [construct]
    split <;> cases ‹some _ = _›
    case h_19.refl => rfl
    all_goals simp [Construct.arity, Arity.admits] at wrong
  | name construct nameless =>
    unfold compileAt
    rw [construct]
    simp only [nameless]
    rfl
  | @range head inner range orNone construct wrong =>
    have none : range? (leastRepetitions orNone) range = none := by
      rwa [← isSome_range?_iff (leastRepetitions orNone), Option.not_isSome_iff_eq_none] at wrong
    unfold compileAt
    rw [construct]
    simp only [none]
    rfl

theorem eq_of_upToOne {args : List Term} (h : Arity.upToOne.admits args.length = true) :
    args = [] ∨ ∃ only, args = [only] := by
  have few : args.length ≤ 1 := of_decide_eq_true h
  rcases Nat.le_one_iff_eq_zero_or_eq_one.mp few with none | one
  · exact .inl (List.eq_nil_of_length_eq_zero none)
  · exact .inr (List.length_eq_one_iff.mp one)

theorem eq_of_oneOrTwo {args : List Term} (h : Arity.oneOrTwo.admits args.length = true) :
    (∃ first, args = [first]) ∨ ∃ first second, args = [first, second] := by
  obtain ⟨some, few⟩ := Bool.and_eq_true_iff.mp h
  have least : 1 ≤ args.length := of_decide_eq_true some
  have most : args.length ≤ 2 := of_decide_eq_true few
  have count : args.length = 1 ∨ args.length = 2 := by omega
  exact count.imp List.length_eq_one_iff.mp List.length_eq_two.mp

/-- Where a construct accepts its arguments, what is wrong is wrong in the patterns among them. -/
theorem failure?_of_accepts {head : Term} {args : List Term} {c : Construct} {cell : Position}
    (construct : Construct.ofHead? head = some c) (accepts : Construct.Accepts c args)
    (each : ∀ t ∈ args, ∀ cell, failure? (compileAt cell t) = (nodes t).findSome? fault?)
    (all : failure? (compileArgs cell 1 args) = (args.flatMap nodes).findSome? fault?) :
    failure? (compileAt cell (.app head args)) =
      ((Construct.inner (some c) head args).flatMap nodes).findSome? fault? := by
  obtain ⟨count, name, range⟩ := accepts
  have one {t : Term} (member : t ∈ args) (cell : Position) (f : Pattern → Pattern) :
      failure? (compileAt cell t >>= fun p => pure (f p)) = ([t].flatMap nodes).findSome? fault? := by
    rw [List.flatMap_singleton, ← each t member cell]
    exact failure?_map f _
  unfold compileAt
  rw [construct]
  cases c with
  | wildcard | options =>
    rcases eq_of_upToOne count with rfl | ⟨only, rfl⟩
    · rfl
    · rfl
  | named =>
    obtain ⟨first, inner, rfl⟩ := List.length_eq_two.mp (beq_iff_eq.mp count)
    obtain ⟨x, symbol⟩ := name rfl
    obtain rfl := Option.some.inj symbol
    exact one (by simp) (2 :: cell) (.named x)
  | alternatives => exact (failure?_map Pattern.alternatives _).trans all
  | hold =>
    obtain ⟨inner, rfl⟩ := List.length_eq_one_iff.mp (beq_iff_eq.mp count)
    exact one (by simp) (1 :: cell) .hold
  | test | condition =>
    obtain ⟨inner, guard, rfl⟩ := List.length_eq_two.mp (beq_iff_eq.mp count)
    exact one (by simp) (1 :: cell) _
  | optional =>
    rcases eq_of_oneOrTwo count with ⟨inner, rfl⟩ | ⟨inner, value, rfl⟩
    · exact one (by simp) (1 :: cell) (.optional · none)
    · exact one (by simp) (1 :: cell) (.optional · (some value))
  | verbatim =>
    rcases eq_of_oneOrTwo count with ⟨content, rfl⟩ | ⟨content, test, rfl⟩
    · rfl
    · rfl
  | except =>
    rcases eq_of_oneOrTwo count with ⟨excluded, rfl⟩ | ⟨excluded, fallback, rfl⟩
    · exact one (by simp) (1 :: cell) (.except · _)
    · -- The fallback is read first.
      have both := failure?_bind (compileAt (2 :: cell) fallback) _ _ fun p =>
        one (t := excluded) (by simp) (1 :: cell) (.except · p)
      rw [each fallback (by simp)] at both
      exact both.trans (by simp [Construct.inner, List.findSome?_append])
  | repeated orNone =>
    rcases eq_of_oneOrTwo count with ⟨inner, rfl⟩ | ⟨inner, bounds, rfl⟩
    · exact one (by simp) (1 :: cell) (.repeated · _ _)
    · obtain ⟨w, width⟩ := Option.isSome_iff_exists.mp
        ((isSome_range?_iff (leastRepetitions orNone)).mpr (range orNone rfl bounds rfl))
      simp only [width]
      exact one (by simp) (1 :: cell) (.repeated · w.least w.most)

theorem fault?_eq_some_iff {t : Term} {e : ReplacementError} : fault? t = some e ↔ Fault t e := by
  constructor
  · intro found
    unfold fault? at found
    split at found
    · split at found
      · cases found
      · next c construct =>
        split at found
        · split at found
          · split at found
            · cases found
            · next nameless =>
              obtain rfl := Option.some.inj found
              exact .name construct (Option.not_isSome_iff_eq_none.mp nameless)
          · split at found
            · cases found
            · next wrong =>
              obtain rfl := Option.some.inj found
              exact .range construct (mt (isSome_range?_iff 0).mpr wrong)
          · cases found
        · next wrong =>
          obtain rfl := Option.some.inj found
          exact .count construct (Bool.eq_false_iff.mpr wrong)
    · cases found
  · intro fault
    cases fault with
    | count construct wrong => simp [fault?, construct, wrong]
    | name construct nameless => simp [fault?, construct, Construct.arity, Arity.admits, nameless]
    | range construct wrong =>
      have none := mt (isSome_range?_iff 0).mp wrong
      simp [fault?, construct, Construct.arity, Arity.admits, none]

theorem wellFormed_iff {t : Term} : WellFormed t ↔ ∀ e, ¬Fault t e := by
  constructor
  · intro wellFormed e fault
    cases fault with
    | count construct wrong => exact absurd (wellFormed _ construct).count (Bool.eq_false_iff.mp wrong)
    | name construct nameless =>
      obtain ⟨x, symbol⟩ := (wellFormed _ construct).name rfl
      obtain rfl := Option.some.inj symbol
      cases nameless
    | range construct wrong => exact wrong ((wellFormed _ construct).range _ rfl _ rfl)
  · intro sound
    cases t with
    | app head args =>
      intro c construct
      have count : c.arity.admits args.length = true := by
        by_contra wrong
        exact sound _ (.count construct (Bool.eq_false_iff.mpr wrong))
      refine ⟨count, ?_, ?_⟩
      · rintro rfl
        obtain ⟨name, inner, rfl⟩ := List.length_eq_two.mp (beq_iff_eq.mp count)
        cases name with
        | symbol x => exact ⟨x, rfl⟩
        | _ => exact (sound _ (.name construct rfl)).elim
      · rintro orNone rfl range given
        by_contra wrong
        rcases eq_of_oneOrTwo count with ⟨inner, rfl⟩ | ⟨inner, bounds, rfl⟩
        · cases given
        · obtain rfl := Option.some.inj given
          exact sound _ (.range construct wrong)
    | _ => trivial

theorem fault?_eq_none_iff {t : Term} : fault? t = none ↔ WellFormed t := by
  rw [wellFormed_iff, Option.eq_none_iff_forall_ne_some]
  exact forall_congr' fun e => not_congr fault?_eq_some_iff

theorem failure?_compileArgs {ts : List Term}
    (each : ∀ t ∈ ts, ∀ cell, failure? (compileAt cell t) = (nodes t).findSome? fault?) (cell : Position)
    (number : Nat) : failure? (compileArgs cell number ts) = (ts.flatMap nodes).findSome? fault? := by
  induction ts generalizing number with
  | nil => rfl
  | cons t ts ih =>
    rw [List.flatMap_cons, List.findSome?_append, ← each t (by simp) (number :: cell),
      ← ih (fun u member => each u (by simp [member])) (number + 1)]
    exact failure?_bind _ _ _ fun p => failure?_map (p :: ·) _

/-- Reading fails with the fault of the first node that has one. -/
theorem failure?_compileAt (cell : Position) (t : Term) :
    failure? (compileAt cell t) = (nodes t).findSome? fault? := by
  induction t using Term.induct generalizing cell with
  | app head args head_ih ih =>
    have all := failure?_compileArgs ih cell 1
    rw [nodes_app, List.findSome?_cons]
    cases own : fault? (.app head args) with
    | some e => rw [compileAt_of_fault (fault?_eq_some_iff.mp own), failure?]
    | none =>
      cases construct : Construct.ofHead? head with
      | none =>
        unfold compileAt
        rw [construct]
        have both := failure?_bind (compileArgs cell 1 args) _ _ fun elements =>
          failure?_map (Pattern.compound · elements) (compileAt (0 :: cell) head)
        rw [all, head_ih] at both
        exact both.trans (by simp [Construct.inner, List.findSome?_append])
      | some c => exact failure?_of_accepts construct (fault?_eq_none_iff.mp own c construct) ih all
  | _ => rfl

/-- A term can be read as a pattern exactly if all nodes in pattern position are well formed, and what
is reported otherwise is the fault of the first that is not. -/
theorem compile_firstFault (t : Term) :
    ((∃ p, compile t = .ok p) ↔ ∀ u ∈ nodes t, WellFormed u) ∧
    ∀ e, compile t = .error e ↔
      ∃ before u after, nodes t = before ++ u :: after ∧ (∀ v ∈ before, WellFormed v) ∧ Fault u e := by
  have outcome : failure? (compile t) = (nodes t).findSome? fault? := failure?_compileAt [] t
  constructor
  · rw [← failure?_eq_none_iff, outcome, List.findSome?_eq_none_iff]
    exact forall₂_congr fun u _ => fault?_eq_none_iff
  · intro e
    rw [← failure?_eq_some_iff, outcome, List.findSome?_eq_some_iff]
    simp only [fault?_eq_none_iff, fault?_eq_some_iff]
    constructor
    · rintro ⟨before, u, after, eq, fault, sound⟩
      exact ⟨before, u, after, eq, sound, fault⟩
    · rintro ⟨before, u, after, eq, sound, fault⟩
      exact ⟨before, u, after, eq, fault, sound⟩

/-- Both patterns of an exception are faulty here, and the fallback is read first. -/
example :
    let excluded := Term.call "Blank" [.symbol "a", .symbol "b"]
    let fallback := Term.call "Pattern" [.integer 1, .call "Blank" []]
    compile (.call "Except" [excluded, fallback]) = .error (.invalidPatternName fallback) := rfl

end Pattern

end TermRewriting
