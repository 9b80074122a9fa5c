import TermRewriting.Proofs.Matching.Agreement
import TermRewriting.Proofs.Matching.Inheritance

/-! The shortcut for variables that are bound already, where order does not count. Whether a term
matches does not depend on it, as long as the pattern is regular and the term arranged; each of the
conditions is needed. -/

namespace TermRewriting

namespace Search

open Journal (Keeps)
open Pattern (declaredFor)

/-- If what is asked for is what the journal keeps, the answers do not depend on the journal. -/
theorem answers_of_keeps {α : Type} {ev : Evaluator} {symbolAt : Position → Option String} {s : Search α}
    (asks : s.AsksOnly fun cell declared => declared = declaredFor ev (symbolAt cell)) {j : Journal}
    (keeps : Keeps ev symbolAt j.inherited) : (s.answers j).1 = s.values := by
  induction s generalizing j with
  | done => rfl
  | found a next ih => simp only [answers, values, ih () asks keeps]
  | note n next ih => exact ih () asks (j := j.note n) keeps
  | inherit cell declared next ih =>
    obtain ⟨rfl, later⟩ := asks
    obtain ⟨options, after⟩ := keeps.inherit cell
    rw [answers, values]
    simp only [options]
    exact ih _ (later _) after

end Search

namespace Pattern

variable {ev : Evaluator} {le : Term → Term → Prop} {choose : Chooser} {p : Pattern} {t : Term}

def isMatchBy (ev : Evaluator) (choose : Chooser) (p : Pattern) (t : Term) : StateM Journal Bool := fun j =>
  let (found, j) := ((searchBy ev choose p {} t .empty).map (·.bindings)).first? j
  (found.isSome, j)

theorem isMatch_eq_isMatchBy (ev : Evaluator) (p : Pattern) (t : Term) :
    p.isMatch ev t = p.isMatchBy ev Siblings.splits t := by
  funext j
  have first : p.firstMatch ev t j =
      ((searchBy ev Siblings.splits p {} t .empty).map (·.bindings)).first? j := by
    rw [searchBy_splits]
    simp only [firstMatch, matchOutcome_eq, Search.first?, solutions]
  simp only [isMatchBy, ← first]
  rfl

/-- The symbol of an exact term that is the same as a literal is read off the literal. -/
theorem symbol?_of_same {v t : Term} (exact : t.isExact = true) (same : v.same t = true) :
    t.symbol? = v.canonical.symbol? := by
  rw [(Term.same_iff.mp same).2]
  cases t with
  | boolean b => cases exact
  | _ => rfl

/-- If nothing was inherited before, and what inherits is under literal heads, then a term matches if
some bindings are reached. -/
theorem isMatchBy_forget (fromItems : choose.FromItems) {u : Term} (read : compile u = .ok p)
    (under : p.InheritsUnder fun _ => True) (regular : p.Regular ev le) (arranges : ev.Arranges le)
    (arranged : t.ArrangedRun ev le) (j : Journal) :
    (p.isMatchBy ev choose t j.forget).1 = true ↔ ∃ β, (searchBy ev choose p {} t .empty).Reaches β := by
  have closes : ev.Closes fun t => t.isExact = true :=
    ⟨rfl, fun _ _ => Term.isExact_app, fun key v declared => (arranges.defaults key v declared).isExact⟩
  obtain ⟨symbolAt, found⟩ :=
    exists_symbolAt (separate_of_compileAt read (fun v => v.canonical.symbol?) none).nodup
  have asks := under.asksOnly_searchBy (P := fun cell declared => declared = declaredFor ev (symbolAt cell))
    fromItems closes (fun _ => rfl) (fun _ _ _ => symbol?_of_same) none
    (fun entry member => by rw [found entry member])
    (fun v member => (regular.arranged_inlineDefaults v member).isExact) {} (fun _ => rfl) t .empty
    arranged.isExact
  change (((searchBy ev choose p {} t .empty).map (·.bindings)).first? j.forget).1.isSome = true ↔ _
  rw [Search.first?_eq_head?, Search.answers_of_keeps (asks.map _) Journal.keeps_nil, List.isSome_head?]
  simp only [← Search.mem_values_bindings]
  exact ⟨List.exists_mem_of_ne_nil _, fun ⟨_, member⟩ => List.ne_nil_of_mem member⟩

/-- The shortcut for variables that are bound already makes no difference to whether a term matches.
Without it, a regular pattern matches the same arranged terms, if what inherits options in it is under
literal heads. -/
theorem isMatchBy_allSplits {u : Term} (read : compile u = .ok p) (under : p.InheritsUnder fun _ => True)
    (regular : p.Regular ev le) (arranges : ev.Arranges le) (arranged : t.ArrangedRun ev le)
    (j j' : Journal) :
    (p.isMatchBy ev Siblings.allSplits t j.forget).1 = (p.isMatch ev t j'.forget).1 := by
  have fromItems : Chooser.FromItems Siblings.allSplits := by
    refine ⟨fun s p first last items b => ?_, fun s p first last items b split found => ?_⟩
    · rw [Siblings.allSplits_eq_splits]
      exact Siblings.splits_fromItems.closed ..
    · rw [Siblings.allSplits_eq_splits] at found
      exact Siblings.splits_fromItems.subset s p first last items .empty split found
  have agree (β : Bindings) := (regular.choicesAgree arranges {} t .empty rfl arranged
    Bindings.arranged_empty (fun _ _ => rfl) β).1
  rw [isMatch_eq_isMatchBy]
  refine Bool.eq_iff_iff.mpr ?_
  rw [isMatchBy_forget fromItems read under regular arranges arranged,
    isMatchBy_forget Siblings.splits_fromItems read under regular arranges arranged]
  exact exists_congr fun β => (agree β).symm

/-- Under `f` the arguments have no order, and under `h` they are flat too. An application to a real
says whether that is negative. -/
def unorderedSymbols : Evaluator where
  evaluate
    | .app _ [.real x] => .boolean x.isNegative
    | t => t
  attributes name :=
    if name = "f" then { orderless := true }
    else if name = "h" then { flat := true, orderless := true }
    else {}
  declaredOptions name := if name = "k" then some [("q", .symbol "True")] else none

inductive Alphabetical : Term → Term → Prop
  | symbols {m n : String} : m ≤ n → Alphabetical (.symbol m) (.symbol n)

theorem arranges_unorderedSymbols : unorderedSymbols.Arranges Alphabetical := by
  refine ⟨?_, fun flat => absurd flat (by decide), fun key v declared => by cases declared⟩
  rintro _ _ ⟨here⟩ ⟨there⟩
  exact congrArg Term.symbol (String.le_antisymm here there)

theorem arranged_call_h (names : List String) (sorted : names.Pairwise (· ≤ ·)) :
    Term.Arranged unorderedSymbols Alphabetical (.call "h" (names.map .symbol)) := by
  refine .app rfl (.atom rfl rfl) (fun t member => ?_) fun name eq flat orderless => ⟨?_, fun t member => ?_⟩
  · obtain ⟨name, -, rfl⟩ := List.mem_map.mp member
    exact .atom rfl rfl
  · exact List.pairwise_map.mpr (sorted.imp .symbols)
  · obtain ⟨name, -, rfl⟩ := List.mem_map.mp member
    rfl

def blank : Term := .call "Blank" []

def naming (name : String) (source : Term) : Term := .call "Pattern" [.symbol name, source]

def anyOne (name : String) : Pattern := .named name (.wildcard .one none)

theorem regular_anyOne (name : String) (unmarked : Bindings.optionOf? name = none) :
    (anyOne name).Regular ev le := .named unmarked (by simp [leftOut]) (.wildcard .one none)

theorem sized_wildcard (head : Option Term) : (wildcard .one head).Sized ev := by
  intro c b β reached
  simp [search] at reached

def flatPair : Pattern := .compound (.literal (.symbol "h")) [anyOne "x", anyOne "y"]

def flatReuse : Pattern := .compound (.literal (.symbol "g")) [anyOne "x", flatPair]

theorem regular_flatReuse : flatReuse.Regular unorderedSymbols Alphabetical := by
  have x : (anyOne "x").Regular unorderedSymbols Alphabetical := regular_anyOne "x" (by decide)
  have y : (anyOne "y").Regular unorderedSymbols Alphabetical := regular_anyOne "y" (by decide)
  have pair : flatPair.Regular unorderedSymbols Alphabetical := by
    refine .compound (.literal _) (by simpa using ⟨x, y⟩) (fun _ x inner member => ?_) (by decide) (by decide)
      (by decide)
    simp only [anyOne, List.mem_cons, Pattern.named.injEq, List.not_mem_nil, or_false] at member
    rcases member with ⟨-, rfl⟩ | ⟨-, rfl⟩ <;> exact sized_wildcard none
  exact .compound (.literal _) (by simpa using ⟨x, pair⟩) (fun orderless => absurd orderless (by decide))
    (by decide) (by decide) (by decide)

theorem inheritsUnder_flatReuse : flatReuse.InheritsUnder fun _ => True := by
  have any (name : String) : (anyOne name).InheritsUnder fun _ => True := .named name (.wildcard .one none)
  have pair : flatPair.InheritsUnder fun _ => True :=
    .compound (fun _ => ⟨_, rfl, trivial⟩) (.literal _) (by simpa using ⟨any "x", any "y"⟩)
  exact .compound (fun _ => ⟨_, rfl, trivial⟩) (.literal _) (by simpa using ⟨any "x", pair⟩)

/-- With `h` flat and without order, the second `x` of `g[x_, h[x_, y_]]` finds the arguments of
`h[a, b]` among those of `h[a, b, c]`. -/
theorem isMatchBy_allSplits_flat :
    compile (.call "g" [naming "x" blank, .call "h" [naming "x" blank, naming "y" blank]]) = .ok flatReuse ∧
      (flatReuse.isMatchBy unorderedSymbols Siblings.allSplits
        (.call "g" [.call "h" [.symbol "a", .symbol "b"],
          .call "h" [.symbol "a", .symbol "b", .symbol "c"]]) (Journal.forget {})).1 = true := by
  have read : compile (.call "g" [naming "x" blank, .call "h" [naming "x" blank, naming "y" blank]]) =
      .ok flatReuse := rfl
  have arranged : Term.Arranged unorderedSymbols Alphabetical
      (.call "g" [.call "h" [.symbol "a", .symbol "b"], .call "h" [.symbol "a", .symbol "b", .symbol "c"]]) := by
    refine .app rfl (.atom rfl rfl) ?_ fun name eq flat => ?_
    · simpa using ⟨arranged_call_h ["a", "b"] (by decide), arranged_call_h ["a", "b", "c"] (by decide)⟩
    · obtain rfl := Term.symbol.inj eq
      exact absurd flat (by decide)
  have same := isMatchBy_allSplits read inheritsUnder_flatReuse regular_flatReuse arranges_unorderedSymbols
    arranged.run {} {}
  exact ⟨read, same.trans (by decide)⟩

def unorderedSequences : Evaluator :=
  { Evaluator.bare with
    attributes := fun name => if name = "Sequence" then { flat := true, orderless := true } else {} }

def unarrangedDefault : Evaluator :=
  { unorderedSymbols with
    defaultValue := fun key =>
      if key = ⟨"g", none, none⟩ then some (.call "h" [.symbol "b", .symbol "a"]) else none }

/-- Whether the term matches what another one reads as, by the shortcut and without it. -/
def verdicts (ev : Evaluator) (source t : Term) : Option (Bool × Bool) :=
  (compile source).toOption.map fun p => ((p.isMatch ev t {}).1, (p.isMatchBy ev Siblings.allSplits t {}).1)

/-- The shortcut makes a difference for patterns and terms of which just one thing is otherwise. -/
theorem isMatchBy_allSplits_differs :
    -- `f[x_, x:_:0]` and `f[0]`: what is left out is bound by an element before.
    verdicts unorderedSymbols
        (.call "f" [naming "x" blank, naming "x" (.call "Optional" [blank, .integer 0])])
        (.call "f" [.integer 0]) = some (false, true) ∧
    -- `x:f[x:_:f[]]` and `f[]`: what is left out is bound by the variable around it.
    verdicts unorderedSymbols
        (naming "x" (.call "f" [naming "x" (.call "Optional" [blank, .call "f" []])]))
        (.call "f" []) = some (false, true) ∧
    -- `x_[f[x:_:g]]` and `g[f[]]`: what is left out is bound by the head.
    verdicts unorderedSymbols
        (.app (naming "x" blank) [.call "f" [naming "x" (.call "Optional" [blank, .symbol "g"])]])
        (.call "g" [.call "f" []]) = some (false, true) ∧
    -- `g[Repeated[f[x:_:0]]]` and `g[f[0], f[]]`: what is left out is bound by the item before.
    verdicts unorderedSymbols
        (.call "g" [.call "Repeated" [.call "f" [naming "x" (.call "Optional" [blank, .integer 0])]]])
        (.call "g" [.call "f" [.integer 0], .call "f" []]) = some (false, true) ∧
    -- `g[x___, f[x:Except[c, ___], __]]` and `g[f[a, b]]`: the second `x` matches the empty run.
    verdicts unorderedSymbols
        (.call "g" [naming "x" (.call "BlankNullSequence" []), .call "f"
          [naming "x" (.call "Except" [.symbol "c", .call "BlankNullSequence" []]),
            .call "BlankSequence" []]])
        (.call "g" [.call "f" [.symbol "a", .symbol "b"]]) = some (true, false) ∧
    -- `g[OptionsPattern[o -> h[b, a]], h[_option_o:_, c]]` and `g[h[a, b, c]]`: an option is a variable.
    verdicts unorderedSymbols
        (.call "g" [.call "OptionsPattern" [.call "Rule" [.symbol "o", .call "h" [.symbol "b", .symbol "a"]]],
          .call "h" [naming "_option_o" blank, .symbol "c"]])
        (.call "g" [.call "h" [.symbol "a", .symbol "b", .symbol "c"]]) = some (true, false) ∧
    -- `g[x:_:h[b, a], h[x_, c]]` and `g[h[a, b, c]]`: an inline default is not in order.
    verdicts unorderedSymbols
        (.call "g" [naming "x" (.call "Optional" [blank, .call "h" [.symbol "b", .symbol "a"]]),
          .call "h" [naming "x" blank, .symbol "c"]])
        (.call "g" [.call "h" [.symbol "a", .symbol "b", .symbol "c"]]) = some (true, false) ∧
    -- `g[x:_., h[x_, c]]` and `g[h[a, b, c]]`: neither is one that is declared.
    verdicts unarrangedDefault
        (.call "g" [naming "x" (.call "Optional" [blank]), .call "h" [naming "x" blank, .symbol "c"]])
        (.call "g" [.call "h" [.symbol "a", .symbol "b", .symbol "c"]]) = some (true, false) ∧
    -- `_[OptionsPattern[]]` inherits the options of `l` or of `k`, whichever it is tried on first.
    verdicts unorderedSymbols
        (.call "g" [.call "BlankNullSequence" [], naming "x" (.call "BlankNullSequence" []),
          .call "f" [naming "x" (.call "Except"
              [.call "Optional" [.call "Condition" [.app blank [.call "OptionsPattern" []],
                .call "OptionValue" [.symbol "q"]], .call "l" []], .call "BlankSequence" []]),
            .call "BlankNullSequence" []], .call "BlankNullSequence" []])
        (.call "g" [.call "f" [.symbol "a"], .call "k" [], .call "f" [.call "k" []]]) = some (true, false) ∧
    -- `h[x_, x_]` and `h[h[a, b], h[a, b]]`: a flat head is nested.
    verdicts unorderedSymbols (.call "h" [naming "x" blank, naming "x" blank])
        (.call "h" [.call "h" [.symbol "a", .symbol "b"], .call "h" [.symbol "a", .symbol "b"]]) =
      some (false, true) ∧
    -- `h[x_, x_]` and `h[a, b, b, a]`: the arguments of a flat head are not in order.
    verdicts unorderedSymbols (.call "h" [naming "x" blank, naming "x" blank])
        (.call "h" [.symbol "a", .symbol "b", .symbol "b", .symbol "a"]) = some (true, false) ∧
    -- `f[x_, x_, y:True]` and `f[True, True, True]`, the first a symbol and the others truth values.
    verdicts unorderedSymbols (.call "f" [naming "x" blank, naming "x" blank, naming "y" (.symbol "True")])
        (.call "f" [.symbol "True", .boolean true, .boolean true]) = some (false, true) ∧
    -- `g[x_, f[x_, Condition[y_, negative[y]]]]` and `g[0.0, f[-0.0, 0.0]]`: two zeros are the same.
    verdicts unorderedSymbols
        (.call "g" [naming "x" blank, .call "f" [naming "x" blank,
          .call "Condition" [naming "y" blank, .call "negative" [.symbol "y"]]]])
        (.call "g" [.real ⟨0⟩, .call "f" [.real ⟨0x8000000000000000⟩, .real ⟨0⟩]]) = some (false, true) ∧
    -- `f[x__, x__]` and `f[Sequence[a], Sequence[a]]`: the arguments are sequences.
    verdicts unorderedSymbols
        (.call "f" [naming "x" (.call "BlankSequence" []), naming "x" (.call "BlankSequence" [])])
        (.call "f" [.sequence [.symbol "a"], .sequence [.symbol "a"]]) = some (false, true) ∧
    -- `Sequence[x:Except[c, __], x:Except[c, __]]` and `Sequence[a, b, b, a]`: sequences are flat.
    verdicts unorderedSequences
        (.sequence [naming "x" (.call "Except" [.symbol "c", .call "BlankSequence" []]),
          naming "x" (.call "Except" [.symbol "c", .call "BlankSequence" []])])
        (.sequence [.symbol "a", .symbol "b", .symbol "b", .symbol "a"]) = some (true, false) := by
  decide

end Pattern

end TermRewriting
