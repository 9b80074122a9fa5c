import TermRewriting.Proofs.Compile
import TermRewriting.Proofs.Matching.Strategy
import TermRewriting.Proofs.Rule
import TermRewriting.Proofs.Search.Journal
import TermRewriting.Proofs.Term.Spelling

/-! Inherited options that are kept from one use of a pattern to the next. Each cell of a pattern
that was read from a term stands at one place in it. If the symbol that encloses a place is known
from the pattern, then what is kept for its cell is what would be declared there anyway, and no use
can tell that the pattern was used before. -/

namespace TermRewriting

namespace Pattern

/-- All cells extend a position, and none is there twice. -/
structure Separate (cell : Position) (entries : List (Position × Option String)) : Prop where
  below : ∀ entry ∈ entries, cell <:+ entry.1
  nodup : (entries.map Prod.fst).Nodup

theorem separate_nil (cell : Position) : Separate cell [] := ⟨by simp, by simp⟩

theorem Separate.up {cell : Position} {number : Nat} {entries : List (Position × Option String)}
    (h : Separate (number :: cell) entries) : Separate cell entries :=
  ⟨fun entry member => (List.suffix_cons number cell).trans (h.below entry member), h.nodup⟩

theorem eq_of_suffix {cell below : Position} {i k : Nat} (first : i :: cell <:+ below)
    (second : k :: cell <:+ below) : i = k := by
  have nested := List.suffix_of_suffix_length_le first second (by simp)
  exact (List.cons.inj (nested.eq_of_length (by simp))).1

theorem Separate.append {cell : Position} {number : Nat}
    {entries later : List (Position × Option String)} (h : Separate (number :: cell) entries)
    (below : ∀ entry ∈ later, ∃ k, number < k ∧ k :: cell <:+ entry.1)
    (nodup : (later.map Prod.fst).Nodup) : Separate cell (entries ++ later) := by
  refine ⟨fun entry member => ?_, ?_⟩
  · rcases List.mem_append.mp member with first | second
    · exact h.up.below entry first
    · obtain ⟨k, -, found⟩ := below entry second
      exact (List.suffix_cons k cell).trans found
  · rw [List.map_append, List.nodup_append]
    refine ⟨h.nodup, nodup, fun c inFirst d inLater eq => ?_⟩
    obtain ⟨entry, first, rfl⟩ := List.mem_map.mp inFirst
    obtain ⟨entry', second, rfl⟩ := List.mem_map.mp inLater
    obtain ⟨k, less, found⟩ := below entry' second
    have same := eq_of_suffix (h.below entry first) (eq ▸ found)
    omega

/-- The patterns of arguments have their cells below one argument each. -/
theorem separate_of_compileArgs {cell : Position} {number : Nat} {ts : List Term} {ps : List Pattern}
    {read : Term → Option String} {symbol : Option String}
    (each : ∀ t ∈ ts, ∀ cell p, compileAt cell t = .ok p → Separate cell (p.inherited read symbol))
    (h : compileArgs cell number ts = .ok ps) :
    (∀ entry ∈ inheritedOfAll read symbol ps, ∃ k, number ≤ k ∧ k :: cell <:+ entry.1) ∧
      Separate cell (inheritedOfAll read symbol ps) := by
  induction ts generalizing number ps with
  | nil =>
    obtain rfl := Except.ok.inj h
    exact ⟨by simp [inheritedOfAll], separate_nil cell⟩
  | cons t ts ih =>
    simp only [compileArgs, bind_eq_ok, pure_eq_ok] at h
    obtain ⟨p, first, ps, rest, rfl⟩ := h
    have here := each t (by simp) _ _ first
    obtain ⟨below, later⟩ := ih (fun t member => each t (by simp [member])) rest
    refine ⟨fun entry member => ?_, here.append below later.nodup⟩
    rcases List.mem_append.mp member with inFirst | inLater
    · exact ⟨number, Nat.le_refl _, here.below entry inFirst⟩
    · obtain ⟨k, less, found⟩ := below entry inLater
      exact ⟨k, Nat.le_of_succ_le less, found⟩

theorem separate_of_compileAt {t : Term} {cell : Position} {p : Pattern}
    (h : compileAt cell t = .ok p) (read : Term → Option String) (symbol : Option String) :
    Separate cell (p.inherited read symbol) := by
  induction t using Term.induct generalizing cell p symbol with
  | app head args head_ih ih =>
    have below {t : Term} {cell : Position} {p : Pattern} (h : compileAt cell t = .ok p)
        (member : t ∈ args) (symbol : Option String) : Separate cell (p.inherited read symbol) :=
      ih t member h symbol
    cases readFrom_of_compileAt h with
    | literal | wildcard | verbatim => exact separate_nil cell
    | compound _ compiled arguments =>
      obtain ⟨below, inArgs⟩ := separate_of_compileArgs (fun t member _ _ h => below h member _) arguments
      exact (head_ih compiled none).append (fun entry member => below entry member) inArgs.nodup
    | alternatives _ arguments =>
      exact (separate_of_compileArgs (fun t member _ _ h => below h member symbol) arguments).2
    | exceptOnly _ excluded =>
      simpa [inherited] using (below excluded (by simp) symbol).up
    | except _ excluded fallback =>
      have inFallback := below fallback (by simp) symbol
      refine (below excluded (by simp) symbol).append (fun entry member => ?_) inFallback.nodup
      exact ⟨2, by decide, inFallback.below entry member⟩
    | named _ _ inner | hold _ inner | test _ inner | condition _ inner =>
      exact (below inner (by simp) symbol).up
    | optional _ _ inner | repeated _ inner | repeatedRange _ inner _ =>
      exact (below inner (by simp) none).up
    | options _ _ =>
      cases args with
      | nil => exact ⟨by simp [inherited], by simp [inherited]⟩
      | cons => exact separate_nil cell
  | _ =>
    obtain rfl := Except.ok.inj h
    exact separate_nil cell

theorem exists_symbolAt {entries : List (Position × Option String)}
    (nodup : (entries.map Prod.fst).Nodup) :
    ∃ symbolAt : Position → Option String, ∀ entry ∈ entries, symbolAt entry.1 = entry.2 := by
  induction entries with
  | nil => exact ⟨fun _ => none, by simp⟩
  | cons entry entries ih =>
    obtain ⟨absent, later⟩ := List.nodup_cons.mp nodup
    obtain ⟨symbolAt, found⟩ := ih later
    refine ⟨fun cell => if cell = entry.1 then entry.2 else symbolAt cell, fun other member => ?_⟩
    rcases List.mem_cons.mp member with rfl | member
    · exact if_pos rfl
    · have apart : other.1 ≠ entry.1 := fun eq => absent (eq ▸ List.mem_map_of_mem member)
      exact (if_neg apart).trans (found other member)

end Pattern

namespace Journal

open Pattern (declaredFor)

/-- What is kept for a cell is what is declared for the symbol at that cell. -/
def Keeps (ev : Evaluator) (symbolAt : Position → Option String) (kept : List (Position × Options)) :
    Prop :=
  ∀ cell options, kept.lookup cell = some options → options = declaredFor ev (symbolAt cell)

variable {ev : Evaluator} {symbolAt : Position → Option String}

theorem keeps_nil : Keeps ev symbolAt [] := by
  intro cell options found
  cases found

/-- A journal that keeps what is declared answers with what is declared, kept or not. -/
theorem Keeps.inherit {j : Journal} (h : Keeps ev symbolAt j.inherited) (cell : Position) :
    (j.inherit cell (declaredFor ev (symbolAt cell))).1 = declaredFor ev (symbolAt cell) ∧
      Keeps ev symbolAt (j.inherit cell (declaredFor ev (symbolAt cell))).2.inherited := by
  cases found : j.inherited.lookup cell with
  | some options =>
    simp only [Journal.inherit, found]
    exact ⟨h cell options found, h⟩
  | none =>
    simp only [Journal.inherit, found, true_and]
    intro other options kept
    rw [List.lookup_cons] at kept
    by_cases same : other = cell
    · simpa [same, eq_comm] using kept
    · exact h other options (by simpa [same, beq_false_of_ne] using kept)

def BothKeep (ev : Evaluator) (symbolAt : Position → Option String)
    (kept kept' : List (Position × Options)) : Prop :=
  Keeps ev symbolAt kept ∧ Keeps ev symbolAt kept'

theorem corresponds_declared (cell : Position) :
    Corresponds (BothKeep ev symbolAt) (fun j => j.inherit cell (declaredFor ev (symbolAt cell)))
      fun j => j.inherit cell (declaredFor ev (symbolAt cell)) := by
  intro j j' keep
  have first := keep.1.inherit cell
  have second := keep.2.inherit cell
  exact ⟨first.1.trans second.1.symm, first.2, second.2⟩

theorem mapM_eq_map {υ α : Type} {use : υ → StateM Journal α}
    (each : ∀ u, Corresponds (BothKeep ev symbolAt) (use u) (use u)) (uses : List υ) {j j' : Journal}
    (keeps : Keeps ev symbolAt j.inherited) (keeps' : Keeps ev symbolAt j'.inherited) :
    (uses.mapM use j).1 = uses.map fun u => (use u j').1 := by
  induction uses generalizing j with
  | nil => rfl
  | cons u uses ih =>
    obtain ⟨same, after, -⟩ := each u j j' ⟨keeps, keeps'⟩
    rw [List.mapM_cons, List.map_cons, ← same, ← ih after]
    rfl

end Journal

namespace Pattern

/-- A term to match, the bindings to start from, and a strategy, which may cut the search short. -/
structure Use where
  term : Term
  bindings : Bindings
  strategy : Strategy Bindings

def answer (ev : Evaluator) (p : Pattern) (u : Use) : StateM Journal (Array Bindings × Option Stop) :=
  fun j =>
    let outcome := p.matchOutcome ev u.term u.bindings u.strategy j
    ((outcome.seen, outcome.stop), outcome.journal)

def NoTruthValue (t : Term) : Prop := t.bool? = none

/-- A term that is no truth value is the same as terms with its symbol only. -/
theorem NoTruthValue.symbol?_eq {v t : Term} (h : NoTruthValue v) (same : v.same t = true) :
    t.symbol? = v.symbol? := by
  have canonical := (Term.same_iff.mp same).2
  cases v with
  | boolean b => cases h
  | symbol name =>
    have other : ∀ b, name ≠ Term.truthName b := fun b eq => by
      simp [Term.bool?_symbol_eq_some.mpr eq, NoTruthValue] at h
    rw [Term.eq_symbol_of_canonical other canonical.symm]
  | _ => cases t <;> simp_all [Term.canonical, Term.same, Term.symbol?, NoTruthValue]

open Journal (BothKeep Corresponds keeps_nil)

variable {ev : Evaluator} {p : Pattern}

/-- Each cell of a pattern that was read from a term asks for what is declared at its place. -/
theorem exists_respects {cell : Position} {t : Term} (read : compileAt cell t = .ok p)
    (under : p.InheritsUnder NoTruthValue) (ev : Evaluator) :
    ∃ symbolAt, ∀ whole t b, (search ev p { whole } t b).Respects (BothKeep ev symbolAt) := by
  obtain ⟨symbolAt, found⟩ := exists_symbolAt (separate_of_compileAt read Term.symbol? none).nodup
  refine ⟨symbolAt, fun whole t b => ?_⟩
  refine under.asksOnly (fun _ _ => NoTruthValue.symbol?_eq) none (fun entry member => ?_) _ (fun _ => rfl) t b
  rw [← found entry member]
  exact Journal.corresponds_declared entry.1

theorem corresponds_answer {Q : List (Position × Options) → List (Position × Options) → Prop}
    (respects : ∀ whole t b, (search ev p { whole } t b).Respects Q) (u : Use) :
    Corresponds Q (p.answer ev u) (p.answer ev u) := by
  have solutions : (p.solutions ev u.term u.bindings).Respects Q := (respects true _ _).map _
  intro j j' related
  obtain ⟨seen, stop, after⟩ := solutions.runFrom u.strategy #[] related
  simp only [answer, matchOutcome_eq, Search.run]
  exact ⟨Prod.ext seen stop, after⟩

end Pattern

namespace Rule

/-- A term to rewrite: to the first result, whether the term must match as a whole or not, or to all
results up to a limit. -/
inductive Use where
  | first (t : Term) (whole : Bool)
  | all (t : Term) (limit : Option Nat)

def answer (ev : Evaluator) (r : Rule) : Use → StateM Journal (List Term)
  | .first t whole => return (← r.apply ev t whole).toList
  | .all t limit => r.applyList ev t limit

open Journal (Corresponds)

variable {ev : Evaluator} {r : Rule} {Q : List (Position × Options) → List (Position × Options) → Prop}

theorem respects_results (respects : ∀ whole t b, (r.lhs.search ev { whole } t b).Respects Q) (t : Term)
    (whole : Bool) : (r.results ev t whole).Respects Q :=
  (respects whole t .empty).bind fun _ => Search.asksOnly_ofOption _

theorem corresponds_answer (respects : ∀ t whole, (r.results ev t whole).Respects Q) (u : Use) :
    Corresponds Q (r.answer ev u) (r.answer ev u) := by
  cases u with
  | first t whole => exact (corresponds_apply (respects t whole)).bind fun _ => Journal.corresponds_pure _
  | all t limit => exact corresponds_applyList (respects t true) limit

end Rule

/-- A pattern or a rule that was read from a term gives the same answers however often it was used
before, whatever for, and even if a use was cut short: those of a copy that was just read. For this
every compound pattern that encloses inherited options has a literal head that is no truth value. -/
theorem inheritance_invisible (ev : Evaluator) :
    (∀ t p, Pattern.compile t = .ok p → p.InheritsUnder Pattern.NoTruthValue →
      ∀ (uses : List Pattern.Use) (j j' : Journal),
        (uses.mapM (p.answer ev) j.forget).1 = uses.map fun u => (p.answer ev u j'.forget).1) ∧
    ∀ cell lhs rhs delayed r, Rule.make cell lhs rhs delayed = .ok r →
      r.lhs.InheritsUnder Pattern.NoTruthValue →
      ∀ (uses : List Rule.Use) (j j' : Journal),
        (uses.mapM (r.answer ev) j.forget).1 = uses.map fun u => (r.answer ev u j'.forget).1 := by
  constructor
  · intro t p read under uses j j'
    obtain ⟨symbolAt, respects⟩ := Pattern.exists_respects read under ev
    exact Journal.mapM_eq_map (Pattern.corresponds_answer respects) uses Journal.keeps_nil Journal.keeps_nil
  · intro cell lhs rhs delayed r made under uses j j'
    obtain ⟨p, read, rfl⟩ := Rule.make_eq_ok_iff.mp made
    obtain ⟨symbolAt, respects⟩ := Pattern.exists_respects read under ev
    have results := Rule.respects_results (r := ⟨p, lhs, rhs, delayed⟩) respects
    exact Journal.mapM_eq_map (Rule.corresponds_answer results) uses Journal.keeps_nil Journal.keeps_nil

def declaringOptions : Evaluator where
  evaluate := id
  declaredOptions name :=
    if name = "f" then some [("a", .integer 1)] else if name = "True" then some [("b", .integer 2)]
    else none

def optionsUnder (head : Term) : Term := .app head [.call "OptionsPattern" []]

/-- The second use passes an option, the third is no match, and the fourth is stopped. -/
def usesOfOptions : List Pattern.Use :=
  [⟨.call "f" [], .empty, .all⟩,
    ⟨.call "f" [.call "Rule" [.symbol "a", .integer 3]], .empty, .all⟩,
    ⟨.call "g" [], .empty, .all⟩, ⟨.call "f" [], .empty, .upTo 1 .found⟩]

theorem inheritance_invisible_options :
    Pattern.compile (optionsUnder (.symbol "f")) =
        .ok (.compound (.literal (.symbol "f")) [.options [1] none]) ∧
      (Pattern.compound (.literal (.symbol "f")) [.options [1] none]).InheritsUnder
        Pattern.NoTruthValue ∧
      (usesOfOptions.mapM (Pattern.answer declaringOptions
        (.compound (.literal (.symbol "f")) [.options [1] none])) {}).1 =
        usesOfOptions.map fun u => (Pattern.answer declaringOptions
          (.compound (.literal (.symbol "f")) [.options [1] none]) u {}).1 := by
  have read : Pattern.compile (optionsUnder (.symbol "f")) =
      .ok (.compound (.literal (.symbol "f")) [.options [1] none]) := rfl
  have under : (Pattern.compound (.literal (.symbol "f")) [.options [1] none]).InheritsUnder
      Pattern.NoTruthValue :=
    .compound (fun _ => ⟨_, rfl, rfl⟩) (.literal _) (by simpa using .options [1] none)
  exact ⟨read, under, (inheritance_invisible declaringOptions).1 _ _ read under usesOfOptions {} {}⟩

/-- The literal head `True` as a Boolean is the same as the symbol, but names none itself. What the
first use keeps is then not what is declared where the second use asks. -/
theorem inheritance_visible_truthValue :
    ¬ ∀ (ev : Evaluator) t p, Pattern.compile t = .ok p →
      (p.InheritsUnder fun head => head ≠ .symbol "True" ∧ head ≠ .symbol "False") →
        ∀ (uses : List Pattern.Use) (j j' : Journal),
          (uses.mapM (p.answer ev) j.forget).1 = uses.map fun u => (p.answer ev u j'.forget).1 := by
  intro invisible
  have under : (Pattern.compound (.literal (.boolean true)) [.options [1] none]).InheritsUnder
      fun head => head ≠ .symbol "True" ∧ head ≠ .symbol "False" :=
    .compound (fun _ => ⟨_, rfl, by simp⟩) (.literal _) (by simpa using .options [1] none)
  have same := invisible declaringOptions (optionsUnder (.boolean true)) _ rfl under
    [⟨.app (.boolean true) [], .empty, .all⟩, ⟨.call "True" [], .empty, .all⟩] {} {}
  have sizes := congrArg (List.map fun a => a.1.toList.map fun b => b.size) same
  revert sizes
  decide

end TermRewriting
