import TermRewriting.Proofs.Matching.Simple

/-! Matching under a flat head. An element may take several arguments, as a sequence or as an
application of the head, and arguments may be left over; flattening all of it again gives back the
arguments there were. -/

namespace TermRewriting

namespace Term

mutual

/-- The arguments of a term under a symbol, when nested applications of the symbol count as one.
A term that is no application of it is its own only argument. -/
def flattenUnder (h : String) : Term → List Term
  | .app head args => if head.isSymbol h then flattenAll h args else [.app head args]
  | t => [t]

def flattenAll (h : String) : List Term → List Term
  | [] => []
  | t :: ts => flattenUnder h t ++ flattenAll h ts

end

variable {h : String}

theorem flattenAll_eq_flatMap (ts : List Term) : flattenAll h ts = ts.flatMap (flattenUnder h) := by
  induction ts with
  | nil => rfl
  | cons t ts ih => simp [flattenAll, ih]

@[simp] theorem flattenAll_append (ts us : List Term) :
    flattenAll h (ts ++ us) = flattenAll h ts ++ flattenAll h us := by
  simp [flattenAll_eq_flatMap]

@[simp] theorem flattenUnder_app_symbol (args : List Term) :
    flattenUnder h (.app (.symbol h) args) = flattenAll h args := by
  simp [flattenUnder, isSymbol, symbol?]

@[simp] theorem flattenAll_singleton (t : Term) : flattenAll h [t] = flattenUnder h t := by
  simp [flattenAll]

end Term

theorem Rearranged.flattenAll {free : Bool} {xs ys : List Term} (order : Rearranged free xs ys)
    (h : String) : Rearranged free (Term.flattenAll h xs) (Term.flattenAll h ys) := by
  rw [Term.flattenAll_eq_flatMap, Term.flattenAll_eq_flatMap]
  exact order.flatMap _

namespace Pattern

/-- A literal atom, or a variable for any terms. -/
inductive Elementary : Pattern → Prop
  | literal {v : Term} : v.isAtom = true → Elementary (.literal v)
  | named (x : String) (span : Span) : Elementary (.named x (.wildcard span none))

/-- What an element becomes in a template: a literal itself, and a variable what it is bound to. -/
def filled (b : Bindings) : Pattern → List Term
  | .literal v => [v]
  | .named x _ => (b.get? x).elim [.symbol x] Term.items
  | _ => []

variable {ev : Evaluator}

/-- An element is matched against what it then stands for, however the bindings grow. -/
theorem Elementary.filled_of_mem {p : Pattern} (elementary : p.Elementary)
    (literal : ∀ v, p = .literal v → v.isExact = true) {c : Context} {t : Term} {b : Bindings}
    {m : Match} (exact : b.IsExact) (exactTerm : t.isExact = true)
    (found : m ∈ (search ev p c t b).values) :
    b.Grows p.names m.bindings ∧
      ∀ n : Bindings, m.bindings.Agrees n.get? → p.filled n = t.items := by
  cases elementary with
  | @literal v isAtom =>
    rw [search, Search.values_ite] at found
    split at found
    · next same =>
      obtain rfl := (Term.same_iff_eq (literal v rfl) exactTerm).mp same
      obtain rfl := List.mem_singleton.mp found
      have apart : v.isSequence = false := by
        cases v with
        | app => cases isAtom
        | _ => rfl
      exact ⟨.refl .., fun n _ => (Term.items_eq_singleton apart).symm⟩
    · simp at found
  | named x span =>
    have only {b : Bindings} (found : m ∈ (search ev (.wildcard span none) c t b).values) :
        m = ⟨b, {}⟩ := by
      cases span <;>
        · rw [search, Search.values_ite] at found
          split at found
          · exact List.mem_singleton.mp found
          · simp at found
    rw [values_named rfl] at found
    cases bound : b.get? x with
    | none =>
      rw [bound] at found
      obtain rfl := only found
      have binds := Bindings.grows_bind bound exactTerm
      refine ⟨binds.mono (by simp [names]), fun n agrees => ?_⟩
      simp [filled, agrees x t (by simp [Bindings.get?_bind])]
    | some value =>
      simp only [bound] at found
      split at found
      · next same =>
        obtain rfl := (Term.same_iff_eq (exact x value bound) exactTerm).mp same
        obtain rfl := only found
        exact ⟨.refl .., fun n agrees => by simp [filled, agrees x _ bound]⟩
      · simp at found

end Pattern

namespace Siblings

open Pattern

variable {ev : Evaluator} {s : Siblings} {h : String}

theorem isExact_of_mem_splits {v : Term} {first last : Bool} {items : List Term} {b : Bindings}
    {split : Split Term} (found : split ∈ (s.splits (.literal v) first last items b).values)
    (exact : ∀ t ∈ items, t.isExact = true) : v.isExact = true := by
  unfold splits at found
  dsimp only at found
  split at found
  · simp at found
  · next enough =>
    have nonempty : items.filter (s.fits (.literal v)) ≠ [] := by
      intro none
      simp [none, width, Width.single] at enough
    obtain ⟨t, member⟩ := List.exists_mem_of_ne_nil _ nonempty
    obtain ⟨inItems, fits⟩ := List.mem_filter.mp member
    have equal : (v == t) = true := by simpa [Siblings.fits, flattens, isWildcard, mayMatch] using fits
    rw [(Term.beq_iff_eq_of_isExact (exact t inItems) v).mp equal]
    exact exact t inItems

/-- However arguments are presented, flattening gives them back. -/
theorem rearranged_of_mem_presentations (notSequence : h ≠ "Sequence") (head : s.head = .symbol h)
    {p : Pattern} {chosen : List Term} {t : Term} (plain : ∀ t ∈ chosen, t.isPlain = true)
    (presented : t ∈ (s.presentations p chosen).values) :
    t.isExact = true ∧ Rearranged s.attributes.orderless (Term.flattenAll h t.items)
      (Term.flattenAll h chosen) := by
  rcases perm_of_mem_presentations presented with ⟨run, order, rfl⟩ | ⟨-, rfl⟩
  · have plainRun (t : Term) (member : t ∈ run) : t.isPlain = true := plain t (order.perm.subset member)
    rw [Term.items_ofRun_of_isPlain plainRun]
    exact ⟨Term.isExact_ofRun_of_isPlain plainRun, order.flattenAll h⟩
  · rw [head, Term.items_eq_singleton (Term.isSequence_app_symbol notSequence chosen)]
    refine ⟨Term.isExact_app.mpr ⟨rfl, fun t member => Term.isExact_of_isPlain (plain t member)⟩, ?_⟩
    simpa using Rearranged.refl ..

/-- What a match does to the arguments: it binds variables of the elements only, it leaves a part
of the arguments alone, and flattening what it leaves and what the elements stand for gives the
arguments back. -/
structure Conserves (free : Bool) (h : String) (ps : List Pattern) (items : List Term) (b : Bindings)
    (m : Match) : Prop where
  grows : b.Grows (namesOfAll ps) m.bindings
  unmatched : (m.left.before ++ m.left.after).Sublist items
  flattened : Rearranged free
    (Term.flattenAll h (m.left.before ++ ps.flatMap (filled m.bindings) ++ m.left.after))
    (Term.flattenAll h items)

theorem Conserves.rearranged {free : Bool} {ps qs : List Pattern} {items : List Term} {b : Bindings}
    {m : Match} (conserves : Conserves free h ps items b m) (order : Rearranged free qs ps) :
    Conserves free h qs items b m where
  grows := conserves.grows.mono (namesOfAll_subset order.perm.symm.subset)
  unmatched := conserves.unmatched
  flattened := by
    refine .trans ?_ conserves.flattened
    exact (((Rearranged.refl ..).append (order.flatMap _)).append (.refl ..)).flattenAll h

theorem before_of_mem_distribute {elements : List (Element Matcher)} {items : List Term}
    {b : Bindings} {m : Match} (found : m ∈ (s.distribute false elements items b).values) :
    m.left.before = [] := by
  cases elements with
  | nil =>
    rw [(mem_distribute_nil.mp found).2]
  | cons e later =>
    obtain ⟨split, inSplits, _, _, _, _, rest, _, rfl⟩ := mem_distribute_cons.mp found
    exact before_of_mem_splits inSplits rfl

theorem conserves_distribute (ev : Evaluator) (notSequence : h ≠ "Sequence") (head : s.head = .symbol h)
    {elements : List (Element Matcher)}
    (elementary : ∀ e ∈ elements, e.pattern.Elementary ∧ e.matcher = search ev e.pattern)
    {first : Bool} {items : List Term} {b : Bindings} {m : Match}
    (plain : ∀ t ∈ items, t.isPlain = true) (exact : b.IsExact)
    (found : m ∈ (s.distribute first elements items b).values) :
    Conserves s.attributes.orderless h (elements.map (·.pattern)) items b m := by
  induction elements generalizing first items b m with
  | nil =>
    obtain ⟨-, rfl⟩ := mem_distribute_nil.mp found
    exact ⟨.refl .., .refl _, .refl ..⟩
  | cons e later ih =>
    obtain ⟨split, inSplits, t, presented, now, matched, rest, continued, rfl⟩ :=
      mem_distribute_cons.mp found
    obtain ⟨order, sub⟩ := rearranged_of_mem_splits inSplits
    have inItems {t : Term} (member : t ∈ split.before ++ split.chosen ++ split.after) :
        t.isPlain = true := plain t (order.perm.subset member)
    obtain ⟨exactTerm, given⟩ := rearranged_of_mem_presentations notSequence head
      (fun t member => inItems (by simp [member])) presented
    obtain ⟨isElementary, matcher⟩ := elementary e (by simp)
    rw [matcher] at matched
    have literal (v : Term) (eq : e.pattern = .literal v) : v.isExact = true :=
      isExact_of_mem_splits (eq ▸ inSplits) fun t member => Term.isExact_of_isPlain (plain t member)
    obtain ⟨grows, fills⟩ := isElementary.filled_of_mem literal exact exactTerm matched
    have conserves := ih (fun e member => elementary e (by simp [member]))
      (fun t member => inItems (by simp [member])) (grows.exact exact) continued
    have nothingBefore := before_of_mem_distribute continued
    refine ⟨grows.trans conserves.grows, ?_, ?_⟩
    · have after := conserves.unmatched
      rw [nothingBefore, List.nil_append] at after
      exact (after.append_left split.before).trans sub
    · have after := conserves.flattened
      rw [nothingBefore, List.nil_append] at after
      simp only [List.map_cons, List.flatMap_cons, fills _ conserves.grows.kept,
        Term.flattenAll_append, List.append_assoc] at after ⊢
      refine .trans ?_ (order.flattenAll h)
      simp only [Term.flattenAll_append, List.append_assoc]
      exact (Rearranged.refl ..).append (given.append after)

end Siblings

end TermRewriting
