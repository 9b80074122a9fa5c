import Mathlib
import TermRewriting.Proofs.Arithmetic.Combine

/-! Values. Evaluation, where it ends, leaves a settled term: its parts are settled, no sequence is among
the arguments of an application, no sum is among the arguments of a sum, and its head does nothing more
with them. A settled term evaluates to itself without calling a function. -/

namespace TermRewriting.Arithmetic

/-- Applications of these heads keep their arguments as they are. -/
def holds (head : Term) : Bool := head.isSymbol "Function" || head.isSymbol "Hold"

/-- Nothing is left to evaluate. -/
inductive Settled : Term → Prop
  | atom {t : Term} : t.isAtom = true → Settled t
  | held {head : Term} {args : List Term} : holds head = true → Settled (.app head args)
  | app {head : Term} {args : List Term} : Settled head → head.isCall "Function" = false →
    (∀ t ∈ args, Settled t) → (∀ t ∈ args, t.isSequence = false) →
      (∀ f ∈ [sum, product], head = .symbol f.name → ∀ t ∈ args, t.isCall f.name = false) →
        reduce head args = .app head args → Settled (.app head args)

theorem Settled.args {head : Term} {args : List Term} (h : Settled (.app head args)) (free : holds head = false) :
    ∀ t ∈ args, Settled t ∧ t.isSequence = false := by
  cases h with
  | atom isAtom => cases isAtom
  | held holding => rw [free] at holding; cases holding
  | app _ _ settled noSequence => exact fun t member => ⟨settled t member, noSequence t member⟩

/-- A settled term stands for settled siblings, none of which is a sequence. -/
theorem Settled.items {t : Term} (h : Settled t) : ∀ u ∈ t.items, Settled u ∧ u.isSequence = false := by
  unfold Term.items
  split
  · next sequence =>
    rw [Term.eq_call_of_isCall sequence] at h
    exact h.args rfl
  · next single => simpa [h] using single

section

variable {f : Fold} (known : f ∈ [sum, product])

include known

theorem isLawful_of_mem : f.IsLawful := by
  rcases List.mem_cons.mp known with rfl | known
  · exact Int.zero_add
  · obtain rfl := List.mem_singleton.mp known
    exact Int.one_mul

theorem holds_symbol : holds (.symbol f.name) = false := by
  rcases List.mem_cons.mp known with rfl | known
  · rfl
  · obtain rfl := List.mem_singleton.mp known
    rfl

theorem reduce_symbol (args : List Term) : reduce (.symbol f.name) args = combine f args := by
  rcases List.mem_cons.mp known with rfl | known
  · rfl
  · obtain rfl := List.mem_singleton.mp known
    rfl

theorem Settled.apart {args : List Term} (h : Settled (.call f.name args)) :
    ∀ t ∈ args, t.isCall f.name = false := by
  cases h with
  | atom isAtom => cases isAtom
  | held holding => rw [holds_symbol known] at holding; cases holding
  | app _ _ _ _ apart => exact apart f known rfl

theorem settled_combine {args : List Term} (settled : ∀ t ∈ args, Settled t ∧ t.isSequence = false) :
    Settled (combine f args) := by
  have part : ∀ t ∈ joined f args, Settled t ∧ t.isSequence = false ∧ t.isCall f.name = false := by
    intro t member
    rcases mem_joined member with ⟨member, single⟩ | ⟨u, member, nested, inside⟩
    · exact ⟨(settled t member).1, (settled t member).2, single⟩
    · have whole := (settled u member).1
      rw [Term.eq_call_of_isCall nested] at whole
      obtain ⟨settled, noSequence⟩ := whole.args (holds_symbol known) t inside
      exact ⟨settled, noSequence, whole.apart known t inside⟩
  have element : ∀ t ∈ gathered f (joined f args),
      Settled t ∧ t.isSequence = false ∧ t.isCall f.name = false := by
    intro t member
    rcases mem_gathered member with member | ⟨n, rfl⟩
    · exact part t member
    · exact ⟨.atom rfl, rfl, rfl⟩
  rw [combine_eq]
  by_cases alone : (gathered f (joined f args)).length = 1
  · obtain ⟨t, eq⟩ := List.length_eq_one_iff.mp alone
    rw [eq]
    exact (element t (by simp [eq])).1
  · have apart : ∀ t ∈ gathered f (joined f args), t.isCall f.name = false :=
      fun t member => (element t member).2.2
    rw [close_of_length_ne_one alone]
    refine .app (.atom rfl) rfl (fun t member => (element t member).1)
      (fun t member => (element t member).2.1) (fun g _ same => ?_) ?_
    · rw [← Term.symbol.inj same]
      exact apart
    · rw [reduce_symbol known, combine_eq, joined_eq_self apart, gathered_gathered (isLawful_of_mem known),
        close_of_length_ne_one alone]
      rfl

/-- Of the arguments of a settled sum or product only the first can be an integer. -/
theorem Settled.int?_of_mem_tail {args : List Term} (h : Settled (.call f.name args)) :
    ∀ t ∈ args.tail, t.int? = none := by
  have apart := h.apart known
  have irreducible : close f (gathered f args) = .call f.name args := by
    cases h with
    | atom isAtom => cases isAtom
    | held holding => rw [holds_symbol known] at holding; cases holding
    | app _ _ _ _ _ kept =>
      rw [reduce_symbol known, combine_eq, joined_eq_self apart] at kept
      exact kept
  have same : gathered f args = args := by
    by_cases alone : (gathered f args).length = 1
    · obtain ⟨t, eq⟩ := List.length_eq_one_iff.mp alone
      obtain rfl : t = .call f.name args := by rw [eq] at irreducible; exact irreducible
      -- The sum would be among its own arguments.
      rcases mem_gathered (eq ▸ List.mem_singleton_self _ : Term.call f.name args ∈ gathered f args) with
        member | ⟨n, integer⟩
      · have nested : (Term.call f.name args).isCall f.name = true := beq_self_eq_true _
        exact absurd nested (Bool.eq_false_iff.mp (apart _ member))
      · cases integer
    · rw [close_of_length_ne_one alone] at irreducible
      exact (Term.app.inj irreducible).2
  rw [← same]
  exact fun t member => int?_none_of_mem_tail member

end

/-- Apart from sums and products, what is not left as it is becomes an atom. -/
theorem reduce_cases (head : Term) (args : List Term) :
    (∃ f ∈ [sum, product], head = .symbol f.name) ∨ reduce head args = .app head args ∨
      (reduce head args).isAtom = true := by
  unfold reduce
  split
  · next plus => exact .inl ⟨sum, by simp, Term.eq_symbol_of_isSymbol (beq_iff_eq.mpr plus)⟩
  · next times => exact .inl ⟨product, by simp, Term.eq_symbol_of_isSymbol (beq_iff_eq.mpr times)⟩
  · unfold compareIntegers; split <;> simp [Term.isAtom]
  · unfold compareIntegers; split <;> simp [Term.isAtom]
  · exact .inr (.inr rfl)
  · exact .inr (.inl rfl)

theorem settled_reduce {head : Term} {args : List Term} (settledHead : Settled head)
    (noFunction : head.isCall "Function" = false) (settled : ∀ t ∈ args, Settled t ∧ t.isSequence = false) :
    Settled (reduce head args) := by
  by_cases known : ∃ f ∈ [sum, product], head = .symbol f.name
  · obtain ⟨f, known, rfl⟩ := known
    rw [reduce_symbol known]
    exact settled_combine known settled
  · rcases reduce_cases head args with found | kept | atom
    · exact absurd found known
    · rw [kept]
      refine .app settledHead noFunction (fun t member => (settled t member).1)
        (fun t member => (settled t member).2) (fun f member eq => ?_) kept
      exact absurd ⟨f, member, eq⟩ known
    · exact .atom atom

section

variable {apply : Term → Option Term}

theorem exists_of_mem_evaluateAll {ts vs : List Term} (h : evaluateAll apply ts = some vs) :
    ∀ v ∈ vs, ∃ t ∈ ts, evaluateWith apply t = some v := by
  induction ts generalizing vs with
  | nil =>
    obtain rfl := Option.some.inj h
    simp
  | cons t ts ih =>
    rw [evaluateAll] at h
    obtain ⟨v, first, h⟩ := Option.bind_eq_some_iff.mp h
    obtain ⟨rest, later, rfl⟩ := Option.map_eq_some_iff.mp h
    intro w member
    rcases List.mem_cons.mp member with rfl | member
    · exact ⟨t, by simp, first⟩
    · obtain ⟨u, inTerms, found⟩ := ih later w member
      exact ⟨u, by simp [inTerms], found⟩

theorem evaluateAll_eq_self {ts : List Term} (each : ∀ t ∈ ts, evaluateWith apply t = some t) :
    evaluateAll apply ts = some ts := by
  induction ts with
  | nil => rfl
  | cons t ts ih =>
    rw [evaluateAll, each t (by simp), ih fun u member => each u (by simp [member])]
    rfl

theorem settled_of_evaluateWith (applies : ∀ t v, apply t = some v → Settled v) {t v : Term}
    (h : evaluateWith apply t = some v) : Settled v := by
  induction t using Term.induct generalizing v with
  | app head args head_ih ih =>
    rw [evaluateWith] at h
    obtain ⟨head', evaluated, h⟩ := Option.bind_eq_some_iff.mp h
    split at h
    · obtain ⟨args', -, h⟩ := Option.bind_eq_some_iff.mp h
      exact applies _ _ h
    · next noFunction =>
      split at h
      · next holding =>
        obtain rfl := Option.some.inj h
        exact .held holding
      · obtain ⟨args', evaluatedArgs, rfl⟩ := Option.map_eq_some_iff.mp h
        refine settled_reduce (head_ih evaluated) (Bool.eq_false_iff.mpr noFunction) fun u member => ?_
        obtain ⟨v, inArgs, inItems⟩ := List.mem_flatMap.mp member
        obtain ⟨t, inTerms, found⟩ := exists_of_mem_evaluateAll evaluatedArgs v inArgs
        exact (ih t inTerms found).items u inItems
  | _ =>
    obtain rfl := Option.some.inj h
    exact .atom rfl

theorem Settled.evaluateWith_eq {v : Term} (h : Settled v) : evaluateWith apply v = some v := by
  induction h with
  | @atom t isAtom => cases t <;> first | rfl | cases isAtom
  | @held head args holding =>
    obtain ⟨x, rfl⟩ : ∃ x, head = .symbol x := by
      rcases Bool.or_eq_true_iff.mp holding with function | hold
      · exact ⟨_, Term.eq_symbol_of_isSymbol function⟩
      · exact ⟨_, Term.eq_symbol_of_isSymbol hold⟩
    exact if_pos holding
  | @app head args _ noFunction _ noSequence _ kept head_ih ih =>
    have items : args.flatMap Term.items = args :=
      flatMap_eq_self fun t member => Term.items_eq_singleton (noSequence t member)
    rw [evaluateWith, head_ih, Option.bind_some, if_neg (Bool.eq_false_iff.mp noFunction)]
    split
    · rfl
    · rw [evaluateAll_eq_self ih, Option.map_some, items, kept]

end

section

variable {apply apply' : Term → Option Term}

theorem evaluateAll_mono {ts vs : List Term}
    (each : ∀ t ∈ ts, ∀ v, evaluateWith apply t = some v → evaluateWith apply' t = some v)
    (h : evaluateAll apply ts = some vs) : evaluateAll apply' ts = some vs := by
  induction ts generalizing vs with
  | nil => exact h
  | cons t ts ih =>
    rw [evaluateAll] at h ⊢
    obtain ⟨v, first, h⟩ := Option.bind_eq_some_iff.mp h
    obtain ⟨rest, later, rfl⟩ := Option.map_eq_some_iff.mp h
    rw [each t (by simp) v first, ih (fun u member => each u (by simp [member])) later]
    rfl

theorem evaluateWith_mono (more : ∀ t v, apply t = some v → apply' t = some v) {t v : Term}
    (h : evaluateWith apply t = some v) : evaluateWith apply' t = some v := by
  induction t using Term.induct generalizing v with
  | app head args head_ih ih =>
    rw [evaluateWith] at h ⊢
    obtain ⟨head', evaluated, h⟩ := Option.bind_eq_some_iff.mp h
    rw [head_ih evaluated, Option.bind_some]
    split at h
    · next function =>
      obtain ⟨args', evaluatedArgs, h⟩ := Option.bind_eq_some_iff.mp h
      rw [if_pos function, evaluateAll_mono (fun t member v => ih t member) evaluatedArgs]
      exact more _ _ h
    · next noFunction =>
      rw [if_neg noFunction]
      split at h
      · next holding => rw [if_pos holding, h]
      · next free =>
        obtain ⟨args', evaluatedArgs, rfl⟩ := Option.map_eq_some_iff.mp h
        rw [if_neg free, evaluateAll_mono (fun t member v => ih t member) evaluatedArgs]
        rfl
  | _ => exact h

end

theorem evaluate?_succ {calls : Nat} {t v : Term} (h : evaluate? calls t = some v) :
    evaluate? (calls + 1) t = some v := by
  induction calls generalizing t v with
  | zero => exact evaluateWith_mono (fun _ _ none => by cases none) h
  | succ calls ih => exact evaluateWith_mono (fun _ _ => ih) h

theorem evaluate?_of_le {calls calls' : Nat} (le : calls ≤ calls') {t v : Term}
    (h : evaluate? calls t = some v) : evaluate? calls' t = some v := by
  induction le with
  | refl => exact h
  | step _ ih => exact evaluate?_succ ih

/-- A term has at most one value, however many calls are allowed. -/
theorem evaluate?_unique {calls calls' : Nat} {t v w : Term} (h : evaluate? calls t = some v)
    (h' : evaluate? calls' t = some w) : v = w := by
  have first := evaluate?_of_le (Nat.le_max_left calls calls') h
  exact Option.some.inj (first.symm.trans (evaluate?_of_le (Nat.le_max_right calls calls') h'))

theorem settled_of_evaluate? {calls : Nat} {t v : Term} (h : evaluate? calls t = some v) : Settled v := by
  induction calls generalizing t v with
  | zero => exact settled_of_evaluateWith (fun _ _ none => by cases none) h
  | succ calls ih => exact settled_of_evaluateWith (fun _ _ => ih) h

theorem Settled.evaluate?_eq {v : Term} (h : Settled v) (calls : Nat) : evaluate? calls v = some v := by
  cases calls <;> exact h.evaluateWith_eq

/-- The parts of a term that evaluation comes to: all but those that stay as they are. -/
inductive EvaluatedPart (t : Term) : Term → Prop
  | self : EvaluatedPart t t
  | head {head : Term} {args : List Term} : EvaluatedPart t (.app head args) → holds head = false →
    EvaluatedPart t head
  | arg {head u : Term} {args : List Term} : EvaluatedPart t (.app head args) → holds head = false →
    u ∈ args → EvaluatedPart t u

theorem Settled.part {t u : Term} (h : Settled t) (part : EvaluatedPart t u) : Settled u := by
  induction part with
  | self => exact h
  | head _ free whole =>
    cases whole with
    | atom isAtom => cases isAtom
    | held holding => rw [free] at holding; cases holding
    | app settled => exact settled
  | arg _ free member whole => exact (whole.args free _ member).1

theorem evaluate_evaluate (t : Term) : evaluate (evaluate t) = evaluate t := by
  cases eq : evaluate? callLimit t with
  | none =>
    have same : evaluate t = t := congrArg (·.getD t) eq
    rw [same, same]
  | some v =>
    have value : evaluate t = v := congrArg (·.getD t) eq
    rw [value]
    exact congrArg (·.getD v) ((settled_of_evaluate? eq).evaluate?_eq callLimit)

/-- The value of a term, of which there is only one, is its own value. In it no application has a
sequence among its arguments, and no sum or product has one of its kind among them or an integer behind
the first of them; only what stays as it is may look otherwise. -/
theorem evaluate?_settles {calls : Nat} {t v : Term} (h : evaluate? calls t = some v) :
    (∀ calls w, evaluate? calls t = some w → w = v) ∧
    (∀ calls, evaluate? calls v = some v) ∧
    ∀ head args, EvaluatedPart v (.app head args) → holds head = false →
      (∀ u ∈ args, u.isSequence = false) ∧
      ∀ f ∈ [sum, product], head = .symbol f.name →
        (∀ u ∈ args, u.isCall f.name = false) ∧ ∀ u ∈ args.tail, u.int? = none := by
  have settled := settled_of_evaluate? h
  refine ⟨fun _ _ h' => evaluate?_unique h' h, settled.evaluate?_eq, fun head args part free => ?_⟩
  have whole := settled.part part
  refine ⟨fun u member => (whole.args free u member).2, ?_⟩
  rintro f known rfl
  exact ⟨whole.apart known, whole.int?_of_mem_tail known⟩

/-- In `List[Plus[Function[Plus[Slot[1], y, Slot[1]]][Plus[1, 2]], x, 1], Sequence[a, Hold[Sequence[]]]]` a
function is called, sums are joined and sorted, and one of two sequences is spliced. -/
theorem evaluate?_settles_call :
    let slot := Term.call "Slot" [.integer 1]
    let double := Term.call "Function" [.call "Plus" [slot, .symbol "y", slot]]
    let plus := Term.call "Plus" [.app double [.call "Plus" [.integer 1, .integer 2]], .symbol "x", .integer 1]
    let held := Term.call "Hold" [.sequence []]
    let v := Term.list [.call "Plus" [.integer 7, .symbol "x", .symbol "y"], .symbol "a", held]
    evaluate? 1 (.list [plus, .sequence [.symbol "a", held]]) = some v ∧
      evaluate? 0 v = some v ∧ ∀ u ∈ [Term.symbol "x", Term.symbol "y"], u.int? = none := by
  intro slot double plus held v
  have value : evaluate? 1 (.list [plus, .sequence [.symbol "a", held]]) = some v := by cbv
  obtain ⟨-, again, parts⟩ := evaluate?_settles value
  have part : EvaluatedPart v (.call "Plus" [.integer 7, .symbol "x", .symbol "y"]) := .arg .self rfl (by simp)
  exact ⟨value, again 0, ((parts _ _ part rfl).2 sum (by simp) rfl).2⟩

end TermRewriting.Arithmetic
