import TermRewriting.Proofs.Matching.Choosing
import TermRewriting.Proofs.Matching.Distribution
import TermRewriting.Proofs.Search.All

/-! Inherited options. Options without defaults of their own are those declared for what encloses
them. Where that is an application whose pattern has a literal head, the symbol is known before
anything is matched. -/

namespace TermRewriting

def Context.symbol? (c : Context) : Option String := c.place.bind (·.head.symbol?)

namespace Pattern

def declaredFor (ev : Evaluator) (symbol : Option String) : Options :=
  (symbol.bind ev.declaredOptions).getD []

mutual

/-- The cells of options that are inherited in a pattern, each with the symbol that encloses it, as it
is read off a literal head. What may be left out or repeated stands on its own, and so does a head. -/
def inherited (read : Term → Option String) (symbol : Option String) :
    Pattern → List (Position × Option String)
  | .options cell none => [(cell, symbol)]
  | .options _ (some _) | .wildcard _ _ | .verbatim _ | .literal _ => []
  | .named _ inner | .hold inner | .test inner _ | .condition inner _ => inherited read symbol inner
  | .optional inner _ | .repeated inner _ _ => inherited read none inner
  | .alternatives choices => inheritedOfAll read symbol choices
  | .except excluded fallback => inherited read symbol excluded ++ inherited read symbol fallback
  | .compound head elements =>
    inherited read none head ++ inheritedOfAll read (head.literal?.bind read) elements

def inheritedOfAll (read : Term → Option String) (symbol : Option String) :
    List Pattern → List (Position × Option String)
  | [] => []
  | p :: ps => inherited read symbol p ++ inheritedOfAll read symbol ps

end

theorem mem_inheritedOfAll {read : Term → Option String} {symbol : Option String} {ps : List Pattern}
    {entry : Position × Option String} :
    entry ∈ inheritedOfAll read symbol ps ↔ ∃ p ∈ ps, entry ∈ p.inherited read symbol := by
  induction ps with
  | nil => simp [inheritedOfAll]
  | cons p ps ih => simp [inheritedOfAll, ih]

mutual

def inlineDefaults : Pattern → List Term
  | .optional inner inline => inline.toList ++ inlineDefaults inner
  | .wildcard _ _ | .verbatim _ | .options _ _ | .literal _ => []
  | .named _ inner | .hold inner | .test inner _ | .condition inner _ | .repeated inner _ _ =>
    inlineDefaults inner
  | .alternatives choices => inlineDefaultsOfAll choices
  | .except excluded fallback => inlineDefaults excluded ++ inlineDefaults fallback
  | .compound head elements => inlineDefaults head ++ inlineDefaultsOfAll elements

def inlineDefaultsOfAll : List Pattern → List Term
  | [] => []
  | p :: ps => inlineDefaults p ++ inlineDefaultsOfAll ps

end

theorem mem_inlineDefaultsOfAll {ps : List Pattern} {v : Term} :
    v ∈ inlineDefaultsOfAll ps ↔ ∃ p ∈ ps, v ∈ p.inlineDefaults := by
  induction ps with
  | nil => simp [inlineDefaultsOfAll]
  | cons p ps ih => simp [inlineDefaultsOfAll, ih]

/-- The options of whatever encloses the pattern are inherited in it. -/
inductive Inherits : Pattern → Prop
  | options (cell : Position) : Inherits (.options cell none)
  | named {inner : Pattern} (name : String) : Inherits inner → Inherits (.named name inner)
  | hold {inner : Pattern} : Inherits inner → Inherits (.hold inner)
  | test {inner : Pattern} (predicate : Term) : Inherits inner → Inherits (.test inner predicate)
  | condition {inner : Pattern} (guard : Term) : Inherits inner → Inherits (.condition inner guard)
  | alternatives {p : Pattern} {choices : List Pattern} :
    p ∈ choices → Inherits p → Inherits (.alternatives choices)
  | excluded {excluded : Pattern} (fallback : Pattern) :
    Inherits excluded → Inherits (.except excluded fallback)
  | fallback {fallback : Pattern} (excluded : Pattern) :
    Inherits fallback → Inherits (.except excluded fallback)

/-- Every compound pattern that encloses inherited options has a literal head, one that is allowed. -/
inductive InheritsUnder (allowed : Term → Prop) : Pattern → Prop
  | wildcard (span : Span) (head : Option Term) : InheritsUnder allowed (.wildcard span head)
  | named {inner : Pattern} (name : String) :
    InheritsUnder allowed inner → InheritsUnder allowed (.named name inner)
  | optional {inner : Pattern} (inline : Option Term) :
    InheritsUnder allowed inner → InheritsUnder allowed (.optional inner inline)
  | alternatives {choices : List Pattern} :
    (∀ p ∈ choices, InheritsUnder allowed p) → InheritsUnder allowed (.alternatives choices)
  | except {excluded fallback : Pattern} :
    InheritsUnder allowed excluded → InheritsUnder allowed fallback →
      InheritsUnder allowed (.except excluded fallback)
  | verbatim (t : Term) : InheritsUnder allowed (.verbatim t)
  | hold {inner : Pattern} : InheritsUnder allowed inner → InheritsUnder allowed (.hold inner)
  | test {inner : Pattern} (predicate : Term) :
    InheritsUnder allowed inner → InheritsUnder allowed (.test inner predicate)
  | condition {inner : Pattern} (guard : Term) :
    InheritsUnder allowed inner → InheritsUnder allowed (.condition inner guard)
  | repeated {inner : Pattern} (least : Nat) (most : Option Nat) :
    InheritsUnder allowed inner → InheritsUnder allowed (.repeated inner least most)
  | options (cell : Position) (defaults : Option Term) : InheritsUnder allowed (.options cell defaults)
  | compound {head : Pattern} {elements : List Pattern} :
    ((∃ p ∈ elements, p.Inherits) → ∃ v, head = .literal v ∧ allowed v) →
      InheritsUnder allowed head → (∀ p ∈ elements, InheritsUnder allowed p) →
        InheritsUnder allowed (.compound head elements)
  | literal (t : Term) : InheritsUnder allowed (.literal t)

end Pattern

/-- Some way to choose takes what it takes from the items, and asks for nothing. -/
structure Chooser.FromItems (choose : Chooser) : Prop where
  closed : ∀ s p first last items b, (choose s p first last items b).Closed
  subset : ∀ s p first last items b, ∀ split ∈ (choose s p first last items b).values,
    split.chosen ⊆ items ∧ split.after ⊆ items

/-- The property is one of all that may come up in matching a term that has it: of its parts, of runs
of terms with the property, and of the default values that are declared. -/
structure Evaluator.Closes (ev : Evaluator) (Q : Term → Prop) : Prop where
  sequence : Q (.symbol "Sequence")
  app : ∀ head args, Q (.app head args) ↔ Q head ∧ ∀ t ∈ args, Q t
  defaults : ∀ key v, ev.defaultValue key = some v → Q v

namespace Evaluator

variable {ev : Evaluator} {Q : Term → Prop}

theorem closes_true (ev : Evaluator) : ev.Closes fun _ => True := ⟨trivial, by simp, fun _ _ _ => trivial⟩

theorem Closes.run (h : ev.Closes Q) {ts : List Term} (each : ∀ t ∈ ts, Q t) : Q (.sequence ts) :=
  (h.app ..).mpr ⟨h.sequence, each⟩

theorem Closes.ofRun (h : ev.Closes Q) {ts : List Term} (each : ∀ t ∈ ts, Q t) : Q (.ofRun ts) := by
  match ts with
  | [t] => exact each t (by simp)
  | [] | _ :: _ :: _ => exact h.run each

theorem Closes.items (h : ev.Closes Q) {t : Term} (holds : Q t) : ∀ u ∈ t.items, Q u := by
  unfold Term.items
  split
  · cases t with
    | app head args => exact ((h.app ..).mp holds).2
    | _ => simp [Term.args]
  · simpa using holds

theorem Closes.default? (h : ev.Closes Q) {inline : Option Term} (each : ∀ v ∈ inline.toList, Q v)
    {place : Option Place} {v : Term} (found : Pattern.default? ev inline place = some v) : Q v := by
  cases inline with
  | some w => exact each v (Option.mem_toList.mpr found)
  | none =>
    obtain ⟨key, -, declared⟩ := List.exists_of_findSome?_eq_some found
    exact h.defaults key v declared

end Evaluator

section

variable {P : Position → Options → Prop} {choose : Chooser} {ev : Evaluator} {Q : Term → Prop}

namespace Siblings

theorem asksOnly_splits (s : Siblings) (p : Pattern) (first last : Bool) (items : List Term)
    (b : Bindings) : (s.splits p first last items b).AsksOnly P := by
  unfold splits
  dsimp only
  split
  · exact Search.asksOnly_done
  split
  · exact Search.asksOnly_runs ..
  cases boundTo? b p with
  | none => exact Search.asksOnly_subsets ..
  | some value => exact Search.asksOnly_ofOption _

theorem splits_fromItems : Chooser.FromItems splits := by
  refine ⟨fun s p first last items b => Search.closed_iff_asksOnly.mpr (asksOnly_splits ..),
    fun s p first last items b split found => ?_⟩
  have order := (rearranged_of_mem_splits found).1.perm
  exact ⟨fun t member => order.subset (by simp [member]), fun t member => order.subset (by simp [member])⟩

theorem asksOnly_presentations (s : Siblings) (p : Pattern) (chosen : List Term) :
    (s.presentations p chosen).AsksOnly P := by
  unfold presentations
  split
  · exact Search.asksOnly_one _
  · refine .append (Search.asksOnly_ite (fun _ => .map ?_ _) fun _ => Search.asksOnly_done)
      (Search.asksOnly_ite (fun _ => Search.asksOnly_one _) fun _ => Search.asksOnly_done)
    exact Search.asksOnly_ite (fun _ => Search.asksOnly_permutations _) fun _ => Search.asksOnly_one _

theorem all_presentations (closes : ev.Closes Q) {s : Siblings} (head : Q s.head) {chosen : List Term}
    (each : ∀ t ∈ chosen, Q t) (p : Pattern) : Search.All Q (s.presentations p chosen) := by
  refine Search.all_of_closed (Search.closed_iff_asksOnly.mpr (asksOnly_presentations ..)) fun t found => ?_
  rcases perm_of_mem_presentations found with ⟨run, order, rfl⟩ | ⟨-, rfl⟩
  · exact closes.ofRun fun u member => each u (order.perm.subset member)
  · exact (closes.app ..).mpr ⟨head, each⟩

theorem asksOnly_distributeBy (fromItems : choose.FromItems) (closes : ev.Closes Q) {s : Siblings}
    (head : Q s.head) {elements : List (Element Matcher)}
    (asks : ∀ e ∈ elements, ∀ t b, Q t →
      (e.matcher ⟨some ⟨s.head, e.position, s.count⟩, true⟩ t b).AsksOnly P)
    (first : Bool) {items : List Term} (each : ∀ t ∈ items, Q t) (b : Bindings) :
    (s.distributeBy choose first elements items b).AsksOnly P := by
  induction elements generalizing first items b with
  | nil => exact Search.asksOnly_ite (fun _ => Search.asksOnly_done) fun _ => Search.asksOnly_one _
  | cons e later ih =>
    have closed := fromItems.closed s e.pattern first later.isEmpty items b
    have subset := fromItems.subset s e.pattern first later.isEmpty items b
    refine closed.asksOnly.bind_of_all (Search.all_of_closed closed subset) fun split sub => ?_
    refine (asksOnly_presentations ..).bind_of_all
      (all_presentations closes head (fun t member => each t (sub.1 member)) e.pattern) fun t matched => ?_
    refine (asks e (by simp) t b matched).bind fun m => .map ?_ _
    exact ih (fun e member => asks e (by simp [member])) false (fun t member => each t (sub.2 member)) _

end Siblings

theorem Element.mem_inOrder {μ : Type} {orderless : Bool} {elements : List (Element μ)}
    {e : Element μ} (h : e ∈ inOrder orderless elements) : e ∈ elements := by
  cases orderless with
  | false => exact h
  | true =>
    simp only [inOrder, byRank, if_true, List.mem_flatMap, List.mem_filter] at h
    obtain ⟨_, _, member, _⟩ := h
    exact member

namespace Pattern

theorem asksOnly_defaultValue (inline : Option Term) (place : Option Place) :
    (defaultValue ev inline place).AsksOnly P := by
  unfold defaultValue
  split <;> exact trivial

theorem all_defaultValue (closes : ev.Closes Q) {inline : Option Term} (each : ∀ v ∈ inline.toList, Q v)
    (place : Option Place) : Search.All Q (defaultValue ev inline place) := by
  unfold defaultValue
  split
  · next v eq => exact Search.all_one.mpr (closes.default? each eq)
  · exact trivial

theorem asksOnly_valueOf (inner : Pattern) (place : Option Place) (t : Term) :
    (valueOf ev inner place t).AsksOnly P := by
  unfold valueOf
  split
  · exact Search.asksOnly_ite (fun _ => asksOnly_defaultValue ..) fun _ => Search.asksOnly_one t
  · exact Search.asksOnly_one t

theorem mem_elementsFromBy {ps : List Pattern} {position : Nat} {e : Element Matcher}
    (h : e ∈ elementsFromBy ev choose position ps) :
    e.pattern ∈ ps ∧ e.matcher = searchBy ev choose e.pattern := by
  induction ps generalizing position with
  | nil => simp [elementsFromBy] at h
  | cons p ps ih =>
    rcases List.mem_cons.mp h with rfl | h
    · exact ⟨List.mem_cons_self, rfl⟩
    · exact ⟨List.mem_cons_of_mem p (ih h).1, (ih h).2⟩

theorem mem_elementsFrom {ps : List Pattern} {position : Nat} {e : Element Matcher}
    (h : e ∈ elementsFrom ev position ps) : e.pattern ∈ ps ∧ e.matcher = search ev e.pattern := by
  rw [← elementsFromBy_splits] at h
  exact searchBy_splits ev e.pattern ▸ mem_elementsFromBy h

/-- A literal head is the same as the heads that it matches. -/
theorem all_same_head (head : Pattern) (t : Term) (b : Bindings) :
    Search.All (fun _ => ∀ v, head = .literal v → v.same t = true) (searchBy ev choose head {} t b) := by
  cases head with
  | literal v =>
    rw [searchBy, search]
    split
    · next same => exact Search.all_one.mpr fun w eq => Pattern.literal.inj eq ▸ same
    · exact Search.all_done
  | _ =>
    refine Search.all_of_forall _ fun _ v eq => ?_
    cases eq

theorem exists_symbol_of_oneIdentity {head : Pattern} (identity : (head.attributes ev).oneIdentity = true) :
    ∃ name, head = .literal (.symbol name) := by
  cases head with
  | literal v =>
    cases v with
    | symbol name => exact ⟨name, rfl⟩
    | _ => cases identity
  | _ => cases identity

/-- The elements are matched under a head that the pattern's head matches, or under the symbol that it
is itself. -/
theorem asksOnly_matchCompoundBy (fromItems : choose.FromItems) (closes : ev.Closes Q) {head : Pattern}
    {elements : List (Element Matcher)}
    (headAsks : ∀ t b, Q t → (searchBy ev choose head {} t b).AsksOnly P)
    (asks : ∀ e ∈ elements, ∀ h position count t b, Q t →
      (∀ v, head = .literal v → (Q h ∧ v.same h = true) ∨ ∃ name, v = .symbol name ∧ h = v) →
      (e.matcher ⟨some ⟨h, position, count⟩, true⟩ t b).AsksOnly P)
    (whole : Bool) {t : Term} (matched : Q t) (b : Bindings) :
    (matchCompoundBy ev choose head (searchBy ev choose head) elements whole t b).AsksOnly P := by
  have application :
      (matchApplicationBy choose (searchBy ev choose head) elements (head.attributes ev) whole t
        b).AsksOnly P := by
    unfold matchApplicationBy
    split
    · next h args =>
      obtain ⟨inHead, inArgs⟩ := (closes.app ..).mp matched
      refine Search.asksOnly_ite (fun _ => ?_) fun _ => Search.asksOnly_done
      refine (headAsks h b inHead).bind_of_all (all_same_head head h b) fun m same => ?_
      refine Siblings.asksOnly_distributeBy fromItems closes inHead (fun e member t b within => ?_) _ inArgs _
      exact asks e (Element.mem_inOrder member) _ _ _ t b within fun v eq => .inl ⟨inHead, same v eq⟩
    · exact Search.asksOnly_done
  have lone (identity : (head.attributes ev).oneIdentity = true) :
      (matchLone head.literal? elements t b).AsksOnly P := by
    obtain ⟨name, rfl⟩ := exists_symbol_of_oneIdentity identity
    refine Search.asksOnly_ite (fun _ => Search.asksOnly_done) fun _ => .map ?_ _
    refine Search.asksOnly_thread (fun e member b => .map ?_ _) b
    refine asks e member _ _ _ _ b ?_ fun w eq => .inr ⟨name, ?_⟩
    · split
      · exact closes.run (by simp)
      · exact matched
    · obtain rfl := Pattern.literal.inj eq
      exact ⟨rfl, rfl⟩
  refine Search.asksOnly_ite (fun _ => Search.asksOnly_done) fun _ => application.append ?_
  exact Search.asksOnly_ite lone fun _ => Search.asksOnly_done

theorem asksOnly_searchAnyBy {ps : List Pattern} {c : Context} {t : Term} {b : Bindings}
    (each : ∀ p ∈ ps, (searchBy ev choose p c t b).AsksOnly P) :
    (searchAnyBy ev choose ps c t b).AsksOnly P := by
  induction ps with
  | nil => exact Search.asksOnly_done
  | cons p ps ih => exact (each p (by simp)).append (ih fun q member => each q (by simp [member]))

/-- Where the symbol that is read off a literal head is that of every head it matches, matching a
pattern asks for options under the cells and symbols that stand in the pattern, and for no others. -/
theorem InheritsUnder.asksOnly_searchBy {allowed : Term → Prop} {read : Term → Option String}
    (fromItems : choose.FromItems) (closes : ev.Closes Q) (reads : ∀ name, read (.symbol name) = some name)
    (fixed : ∀ v t, allowed v → Q t → v.same t = true → t.symbol? = read v) {p : Pattern}
    (h : p.InheritsUnder allowed) (symbol : Option String)
    (holds : ∀ entry ∈ p.inherited read symbol, P entry.1 (declaredFor ev entry.2))
    (inline : ∀ v ∈ p.inlineDefaults, Q v) (c : Context) (place : p.Inherits → c.symbol? = symbol)
    (t : Term) (b : Bindings) (matched : Q t) : (searchBy ev choose p c t b).AsksOnly P := by
  induction h generalizing symbol c t b with
  | wildcard span head =>
    cases span <;>
      exact Search.asksOnly_ite (fun _ => Search.asksOnly_one _) fun _ => Search.asksOnly_done
  | named name _ ih =>
    have inner := fun b => ih symbol holds inline c (fun direct => place (.named name direct)) t b matched
    refine (asksOnly_valueOf ..).bind fun value => ?_
    split
    · exact Search.asksOnly_ite (fun _ => inner b) fun _ => Search.asksOnly_done
    · exact inner _
  | optional default _ ih =>
    have value : Search.All Q (if t.isEmptySequence then defaultValue ev default c.place else .one t) := by
      split
      · exact all_defaultValue closes (fun v member => inline v (List.mem_append_left _ member)) c.place
      · exact Search.all_one.mpr matched
    have inner := ih none holds fun v member => inline v (List.mem_append_right _ member)
    refine Search.AsksOnly.bind_of_all ?_ value fun value holdsValue =>
      inner {} (fun _ => rfl) value b holdsValue
    exact Search.asksOnly_ite (fun _ => asksOnly_defaultValue ..) fun _ => Search.asksOnly_one t
  | alternatives _ ih =>
    refine asksOnly_searchAnyBy fun p member => ih p member symbol (fun entry inPattern => ?_)
      (fun v inPattern => ?_) c ?_ t b matched
    · exact holds entry (mem_inheritedOfAll.mpr ⟨p, member, inPattern⟩)
    · exact inline v (mem_inlineDefaultsOfAll.mpr ⟨p, member, inPattern⟩)
    · exact fun direct => place (.alternatives member direct)
  | except _ _ probe ih =>
    have excluded := probe symbol (fun entry member => holds entry (List.mem_append_left _ member))
      (fun v member => inline v (List.mem_append_left _ member)) c
      (fun direct => place (.excluded _ direct)) t b matched
    have fallback := ih symbol (fun entry member => holds entry (List.mem_append_right _ member))
      (fun v member => inline v (List.mem_append_right _ member)) c
      (fun direct => place (.fallback _ direct)) t b matched
    exact excluded.barring fallback
  | verbatim v | literal v =>
    exact Search.asksOnly_ite (fun _ => Search.asksOnly_one _) fun _ => Search.asksOnly_done
  | hold _ ih => exact ih symbol holds inline c (fun direct => place (.hold direct)) t b matched
  | test predicate _ ih =>
    have inner := ih symbol holds inline { c with whole := true }
      (fun direct => place (.test predicate direct)) t b matched
    exact inner.filter _
  | condition guard _ ih =>
    exact (ih symbol holds inline c (fun direct => place (.condition guard direct)) t b matched).filter _
  | repeated least most _ ih =>
    refine Search.asksOnly_ite (fun _ => .map (Search.asksOnly_thread (fun item member b => ?_) b) _)
      fun _ => Search.asksOnly_done
    exact (ih none holds inline {} (fun _ => rfl) item b (closes.items matched item member)).map _
  | options cell explicit =>
    rw [searchBy, search]
    cases explicit with
    | some defaults =>
      refine (Search.asksOnly_one _).bind fun options => ?_
      split <;> exact trivial
    | none =>
      have enclosing : declaredAt ev c.place = declaredFor ev symbol :=
        congrArg (declaredFor ev) (place (.options cell))
      have asked : P cell (declaredAt ev c.place) := enclosing ▸ holds (cell, symbol) (by simp [inherited])
      refine .bind ⟨asked, fun _ => trivial⟩ fun options => ?_
      split <;> exact trivial
  | @compound head elements literal _ _ head_ih ih =>
    refine asksOnly_matchCompoundBy fromItems closes (fun t b matched => ?_)
      (fun e member h position count t b matched same => ?_) _ matched _
    · exact head_ih none (fun entry member => holds entry (List.mem_append_left _ member))
        (fun v member => inline v (List.mem_append_left _ member)) {} (fun _ => rfl) t b matched
    · obtain ⟨inElements, eq⟩ := mem_elementsFromBy member
      rw [eq]
      refine ih _ inElements (head.literal?.bind read) (fun entry inPattern => holds entry ?_)
        (fun v inPattern => inline v ?_) _ (fun direct => ?_) t b matched
      · exact List.mem_append_right _ (mem_inheritedOfAll.mpr ⟨_, inElements, inPattern⟩)
      · exact List.mem_append_right _ (mem_inlineDefaultsOfAll.mpr ⟨_, inElements, inPattern⟩)
      · obtain ⟨v, rfl, isAllowed⟩ := literal ⟨_, inElements, direct⟩
        rcases same v rfl with ⟨inHead, same⟩ | ⟨name, rfl, rfl⟩
        · exact fixed v h isAllowed inHead same
        · exact (reads name).symm

theorem InheritsUnder.asksOnly {allowed : Term → Prop}
    (fixed : ∀ v t, allowed v → v.same t = true → t.symbol? = v.symbol?) {p : Pattern}
    (h : p.InheritsUnder allowed) (symbol : Option String)
    (holds : ∀ entry ∈ p.inherited Term.symbol? symbol, P entry.1 (declaredFor ev entry.2)) (c : Context)
    (place : p.Inherits → c.symbol? = symbol) (t : Term) (b : Bindings) :
    (search ev p c t b).AsksOnly P := by
  rw [← searchBy_splits]
  exact h.asksOnly_searchBy Siblings.splits_fromItems ev.closes_true (fun _ => rfl)
    (fun v t isAllowed _ => fixed v t isAllowed) symbol holds (fun _ _ => trivial) c place t b trivial

end Pattern

end

end TermRewriting
