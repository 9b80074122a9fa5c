import TermRewriting.Proofs.Matching.Exclusion
import TermRewriting.Proofs.Matching.Wrapping

/-! Transparent wrappers. In a term that is read as a pattern, `HoldPattern` or `Pattern` with a new variable
can be put around an element of an application without changing what matches, as long as the application
does not see the element in another way. Where it does, the wrapper shows. -/

namespace TermRewriting

open Bindings (AgreeBut Awaits optionOf?)

/-- Whether the argument with that number is read as a pattern, if the head is that construct or none. -/
def Construct.reads : Option Construct → Nat → Bool
  | none, _ | some .alternatives, _ => true
  | some .named, n => n == 2
  | some .optional, n | some .hold, n | some .test, n | some (.repeated _), n => n == 1
  | some .except, n => n == 1 || n == 2
  | some (.wildcard _), _ | some .verbatim, _ | some .condition, _ | some .options, _ => false

namespace Wrapper

def onTerm : Wrapper → Term → Term
  | .hold, t => .call "HoldPattern" [t]
  | .named x, t => .call "Pattern" [.symbol x, t]

def argument : Wrapper → Nat
  | .hold => 1
  | .named _ => 2

end Wrapper

def Evaluator.headAttributes (ev : Evaluator) (head : Term) : Attributes := (head.symbol?.map ev.attributes).getD {}

/-- The second term is the first one with a wrapper around an element of an application in it that is read
as a compound pattern. The element is required and is seen in the same way with the wrapper, and `ys` are its
decisive variables. What is repeated can only be wrapped in what binds no variable, and has no decisive
variables. -/
inductive Term.Wraps (ev : Evaluator) (w : Wrapper) : List String → Term → Term → Prop
  | element {head q : Term} {p : Pattern} {before after : List Term} : Construct.ofHead? head = none →
    Pattern.compile q = .ok p → w.Suits (ev.headAttributes head) p →
      Wraps ev w (Wrapper.decisive (ev.headAttributes head) p) (.app head (before ++ q :: after))
        (.app head (before ++ w.onTerm q :: after))
  | head {ys : List String} {head head' : Term} {args : List Term} : Wraps ev w ys head head' →
    Wraps ev w ys (.app head args) (.app head' args)
  | part {ys : List String} {head t t' : Term} {before after : List Term} :
    Construct.reads (Construct.ofHead? head) (1 + before.length) = true →
      (∀ orNone, Construct.ofHead? head = some (.repeated orNone) → w.names = [] ∧ ys = []) → Wraps ev w ys t t' →
        Wraps ev w ys (.app head (before ++ t :: after)) (.app head (before ++ t' :: after))

def Position.insert (d : Position) (k : Nat) (c : Position) : Position :=
  if d <:+ c then c.take (c.length - d.length) ++ k :: d else c

namespace Position

variable {c d : Position} {k : Nat}

theorem insert_append (s d : Position) (k : Nat) : insert d k (s ++ d) = s ++ k :: d := by
  simp [insert]

theorem insert_of_not_suffix (apart : ¬d <:+ c) : insert d k c = c := if_neg apart

theorem insert_injective (d : Position) (k : Nat) : Function.Injective (insert d k) := by
  have below (s : Position) : d <:+ s ++ k :: d := ⟨s ++ [k], by simp⟩
  intro c c' same
  by_cases inside : d <:+ c
  · obtain ⟨s, rfl⟩ := inside
    by_cases inside' : d <:+ c'
    · obtain ⟨s', rfl⟩ := inside'
      rw [insert_append, insert_append] at same
      rw [List.append_cancel_right same]
    · rw [insert_append, insert_of_not_suffix inside'] at same
      exact absurd (same ▸ below s) inside'
  · by_cases inside' : d <:+ c'
    · obtain ⟨s', rfl⟩ := inside'
      rw [insert_append, insert_of_not_suffix inside] at same
      exact absurd (same ▸ below s') inside
    · rwa [insert_of_not_suffix inside, insert_of_not_suffix inside'] at same

theorem biUnique_insert (d : Position) (k : Nat) : Relator.BiUnique fun c c' => c' = insert d k c :=
  ⟨fun _ _ _ first second => insert_injective d k (first.symm.trans second),
    fun _ _ _ first second => first.trans second.symm⟩

theorem not_suffix_of_part {cell : Position} {i j : Nat} (there : j :: cell <:+ d) (other : i ≠ j)
    (below : i :: cell <:+ c) : ¬d <:+ c := by
  intro inside
  have here : j :: cell <:+ c := there.trans inside
  have same : i :: cell = j :: cell := by
    rw [List.suffix_iff_eq_drop.mp below, List.suffix_iff_eq_drop.mp here]
    simp
  exact other (List.cons.inj same).1

end Position

namespace Pattern

variable {ev : Evaluator} {w : Wrapper} {ys : List String} {P P' : Term} {p : Pattern} {cell d : Position} {k : Nat}

theorem attributes_of_compileAt {t : Term} (h : compileAt cell t = .ok p) :
    p.attributes ev = ev.headAttributes t := by
  rw [Pattern.attributes, symbol?_of_compileAt h, Evaluator.headAttributes]

theorem relocate_of_other_part {i j : Nat} {t : Term} (there : j :: cell <:+ d) (other : i ≠ j)
    (h : compileAt (i :: cell) t = .ok p) : p.relocate (Position.insert d k) = p :=
  relocate_eq_self fun entry member => Position.insert_of_not_suffix <|
    Position.not_suffix_of_part there other (suffix_of_compileAt h entry member)

theorem relocateAll_of_other_parts {j : Nat} (there : j :: cell <:+ d) {ts : List Term} {ps : List Pattern}
    {number : Nat} (other : j < number ∨ number + ts.length ≤ j) (h : compileArgs cell number ts = .ok ps) :
    relocateAll (Position.insert d k) ps = ps := by
  induction ts generalizing number ps with
  | nil =>
    obtain rfl := Except.ok.inj h
    rfl
  | cons t ts ih =>
    simp only [compileArgs, bind_eq_ok, pure_eq_ok] at h
    obtain ⟨p, first, ps, later, rfl⟩ := h
    rw [List.length_cons] at other
    have apart : number ≠ j := by omega
    rw [relocateAll, relocate_of_other_part there apart first, ih (by omega) later]

theorem compileArgs_append_cons {before after : List Term} {t : Term} {number : Nat} {ps : List Pattern} :
    compileArgs cell number (before ++ t :: after) = .ok ps ↔
      ∃ bs p as, ps = bs ++ p :: as ∧ compileArgs cell number before = .ok bs ∧
        compileAt ((number + before.length) :: cell) t = .ok p ∧
        compileArgs cell (number + before.length + 1) after = .ok as := by
  induction before generalizing number ps with
  | nil =>
    simp only [List.nil_append, compileArgs, bind_eq_ok, pure_eq_ok, List.length_nil, Nat.add_zero]
    constructor
    · rintro ⟨p, first, as, later, rfl⟩
      exact ⟨[], p, as, rfl, rfl, first, later⟩
    · rintro ⟨bs, p, as, rfl, rfl, first, later⟩
      exact ⟨p, first, as, later, rfl⟩
  | cons u before ih =>
    have shift : number + 1 + before.length = number + (before.length + 1) := by omega
    simp only [List.cons_append, compileArgs, bind_eq_ok, pure_eq_ok, List.length_cons, ih, shift]
    constructor
    · rintro ⟨q, first, _, ⟨bs, p, as, rfl, front, part, back⟩, rfl⟩
      exact ⟨q :: bs, p, as, rfl, ⟨q, first, bs, front, rfl⟩, part, back⟩
    · rintro ⟨_, p, as, rfl, ⟨q, first, bs, front, rfl⟩, part, back⟩
      exact ⟨q, first, bs ++ p :: as, ⟨bs, p, as, rfl, front, part, back⟩, rfl⟩

theorem relocateAll_part {before after : List Term} {bs as : List Pattern} {number : Nat}
    (there : (number + before.length) :: cell <:+ d) (front : compileArgs cell number before = .ok bs)
    (back : compileArgs cell (number + before.length + 1) after = .ok as) (p : Pattern) :
    relocateAll (Position.insert d k) (bs ++ p :: as) = bs ++ p.relocate (Position.insert d k) :: as := by
  have first := relocateAll_of_other_parts (k := k) there (.inr (Nat.le_refl _)) front
  have last := relocateAll_of_other_parts (k := k) there (.inl (Nat.lt_succ_self _)) back
  rw [relocateAll_eq_map] at first last ⊢
  rw [List.map_append, List.map_cons, first, last]

theorem exists_compound {head : Term} {args : List Term} (construct : Construct.ofHead? head = none)
    (h : compileAt cell (.app head args) = .ok p) :
    ∃ q elements, p = .compound q elements ∧ compileAt (0 :: cell) head = .ok q ∧
      compileArgs cell 1 args = .ok elements := by
  unfold compileAt at h
  simp only [construct, bind_eq_ok, pure_eq_ok] at h
  obtain ⟨elements, arguments, q, compiled, rfl⟩ := h
  exact ⟨q, elements, rfl, compiled, arguments⟩

end Pattern

namespace Wrapper

variable {w : Wrapper} {attributes : Attributes} {q : Pattern} {f : Position → Position}

theorem onPattern_relocate (w : Wrapper) (q : Pattern) : w.onPattern (q.relocate f) = (w.onPattern q).relocate f := by
  cases w <;> rfl

theorem Suits.relocate (suits : w.Suits attributes q) : w.Suits attributes (q.relocate f) where
  required := by simpa using suits.required
  flat flat := by simpa [onPattern_relocate] using suits.flat flat
  orderless orderless := by simpa [onPattern_relocate] using suits.orderless orderless

/-- The wrapped element is read at the same position, and has its cells one step further down. -/
theorem compileAt_onTerm (w : Wrapper) {t : Term} (compiled : Pattern.compile t = .ok q) (d : Position) :
    Pattern.compileAt d (w.onTerm t) =
      .ok ((w.onPattern (q.relocate (· ++ d))).relocate (Position.insert d w.argument)) := by
  have moved : Position.insert d w.argument ∘ (· ++ d) = (· ++ w.argument :: d) := by
    funext s
    exact Position.insert_append ..
  rw [← onPattern_relocate, Pattern.relocate_relocate, moved]
  have inner := Pattern.compileAt_of_compile compiled (w.argument :: d)
  cases w with
  | hold => exact Pattern.compileAt_of_readFrom (.hold rfl inner)
  | named x => exact Pattern.compileAt_of_readFrom (.named rfl rfl inner)

theorem decisive_relocate (attributes : Attributes) (q : Pattern) :
    decisive attributes (q.relocate f) = decisive attributes q := by
  rw [decisive, decisive, show (q.relocate f).name? = q.name? from congrArg Outline.name? (q.outline_relocate f)]

end Wrapper

namespace Pattern

variable {ev : Evaluator} {w : Wrapper} {ys : List String} {P P' : Term} {p : Pattern} {cell : Position}

theorem construct_of_wraps (wraps : P.Wraps ev w ys P') :
    Construct.ofHead? P = none ∧ Construct.ofHead? P' = none := by
  cases wraps <;> exact ⟨rfl, rfl⟩

section

variable {before after rest : List Term} {t first second : Term}

theorem eq_first (same : before ++ t :: after = first :: rest) (number : (1 + before.length == 1) = true) :
    before = [] ∧ t = first ∧ after = rest := by
  obtain rfl : before = [] := by simpa using number
  simpa using same

theorem eq_second (same : before ++ t :: after = first :: second :: rest)
    (number : (1 + before.length == 2) = true) : before = [first] ∧ t = second ∧ after = rest := by
  have one : before.length = 1 := by
    rw [beq_iff_eq] at number
    omega
  obtain ⟨u, rfl⟩ := List.length_eq_one_iff.mp one
  simpa using same

end

/-- The term is read as the pattern with a wrapper in it, but the cells below the wrapper are one step further
down. -/
def WrapsAt (ev : Evaluator) (w : Wrapper) (ys : List String) (cell : Position) (p : Pattern) (P' : Term) : Prop :=
  ∃ d, cell <:+ d ∧ ∃ p', p.Wraps ev w ys p' ∧ compileAt cell P' = .ok (p'.relocate (Position.insert d w.argument))

section

variable {number k : Nat} {d : Position} {head t t' : Term} {before after : List Term} {q : Pattern}

/-- With the wrapper in a part, it is in what is around the part. -/
theorem WrapsAt.around (inner : WrapsAt ev w ys (number :: cell) q t') (C : Pattern → Pattern)
    (wraps : ∀ {q'}, q.Wraps ev w ys q' → (C q).Wraps ev w ys (C q'))
    (reads : ∀ {d q'}, number :: cell <:+ d →
      compileAt (number :: cell) t' = .ok (q'.relocate (Position.insert d w.argument)) →
        ReadFrom cell P' ((C q').relocate (Position.insert d w.argument))) : WrapsAt ev w ys cell (C q) P' := by
  obtain ⟨d, below, q', wrapped, part⟩ := inner
  exact ⟨d, (List.suffix_cons ..).trans below, C q', wraps wrapped, compileAt_of_readFrom (reads below part)⟩

theorem compileArgs_part {bs as : List Pattern} {q' : Pattern} (below : (number + before.length) :: cell <:+ d)
    (front : compileArgs cell number before = .ok bs)
    (part : compileAt ((number + before.length) :: cell) t' = .ok (q'.relocate (Position.insert d k)))
    (back : compileArgs cell (number + before.length + 1) after = .ok as) :
    compileArgs cell number (before ++ t' :: after) = .ok (relocateAll (Position.insert d k) (bs ++ q' :: as)) := by
  rw [relocateAll_part below front back]
  exact compileArgs_append_cons.mpr ⟨bs, _, as, rfl, front, part, back⟩

theorem wrapsAt_part (reads : Construct.reads (Construct.ofHead? head) (1 + before.length) = true)
    (once : ∀ orNone, Construct.ofHead? head = some (.repeated orNone) → w.names = [] ∧ ys = [])
    (ih : ∀ {cell q}, compileAt cell t = .ok q → WrapsAt ev w ys cell q t')
    (h : compileAt cell (.app head (before ++ t :: after)) = .ok p) :
    WrapsAt ev w ys cell p (.app head (before ++ t' :: after)) := by
  generalize same : before ++ t :: after = args at h
  cases readFrom_of_compileAt h with
  | literal atom => cases atom
  | @compound _ _ p' _ construct readHead arguments =>
    subst same
    obtain ⟨bs, q, as, rfl, front, part, back⟩ := compileArgs_append_cons.mp arguments
    refine (ih part).around (fun q => .compound p' (bs ++ q :: as)) .part fun below part' => ?_
    rw [relocate, relocate_of_other_part below (by omega) readHead]
    exact .compound construct readHead (compileArgs_part below front part' back)
  | alternatives construct arguments =>
    subst same
    obtain ⟨bs, q, as, rfl, front, part, back⟩ := compileArgs_append_cons.mp arguments
    exact (ih part).around (fun q => .alternatives (bs ++ q :: as)) .choice fun below part' =>
      .alternatives construct (compileArgs_part below front part' back)
  | @named _ _ _ x _ construct symbol part =>
    rw [construct] at reads
    obtain ⟨rfl, rfl, rfl⟩ := eq_second same reads
    exact (ih part).around (.named x) (.named x) fun _ part' => .named construct symbol part'
  | @optional _ _ rest _ construct short part =>
    rw [construct] at reads
    obtain ⟨rfl, rfl, rfl⟩ := eq_first same reads
    exact (ih part).around (.optional · after.head?) (.optional _) fun _ part' => .optional construct short part'
  | hold construct part =>
    rw [construct] at reads
    obtain ⟨rfl, rfl, rfl⟩ := eq_first same reads
    exact (ih part).around .hold .hold fun _ part' => .hold construct part'
  | @test _ _ predicate _ construct part =>
    rw [construct] at reads
    obtain ⟨rfl, rfl, rfl⟩ := eq_first same reads
    exact (ih part).around (.test · predicate) (.test predicate) fun _ part' => .test construct part'
  | @repeated _ _ orNone _ construct part =>
    obtain ⟨none, rfl⟩ := once _ construct
    rw [construct] at reads
    obtain ⟨rfl, rfl, rfl⟩ := eq_first same reads
    exact (ih part).around (.repeated · (leastRepetitions orNone) .none) (.repeated _ _ none) fun _ part' =>
      .repeated construct part'
  | @repeatedRange _ _ _ _ _ range construct part isRange =>
    obtain ⟨none, rfl⟩ := once _ construct
    rw [construct] at reads
    obtain ⟨rfl, rfl, rfl⟩ := eq_first same reads
    exact (ih part).around (.repeated · range.least range.most) (.repeated _ _ none) fun _ part' =>
      .repeatedRange construct part' isRange
  | exceptOnly construct part =>
    rw [construct] at reads
    rcases Bool.or_eq_true_iff.mp reads with number | number
    · obtain ⟨rfl, rfl, rfl⟩ := eq_first same number
      exact (ih part).around (.except · (.wildcard .one none)) (.excluded _) fun _ part' => .exceptOnly construct part'
    · have lengths := congrArg List.length same
      simp at lengths number
      omega
  | @except _ _ _ excluded fallback construct part other =>
    rw [construct] at reads
    rcases Bool.or_eq_true_iff.mp reads with number | number
    · obtain ⟨rfl, rfl, rfl⟩ := eq_first same number
      refine (ih part).around (.except · fallback) (.excluded _) fun below part' => ?_
      rw [relocate, relocate_of_other_part below (by simp) other]
      exact .except construct part' other
    · obtain ⟨rfl, rfl, rfl⟩ := eq_second same number
      refine (ih other).around (.except excluded) (.fallback _) fun below other' => ?_
      rw [relocate, relocate_of_other_part below (by simp) part]
      exact .except construct part other'
  | wildcard _ construct | verbatim construct | condition construct | options construct =>
    rw [construct] at reads
    cases reads

end

/-- What a term with a wrapper in it is read as. -/
theorem wrapsAt_of_wraps (wraps : P.Wraps ev w ys P') (h : compileAt cell P = .ok p) :
    WrapsAt ev w ys cell p P' := by
  induction wraps generalizing cell p with
  | @element head q r before after construct compiled suits =>
    obtain ⟨head', elements, rfl, readHead, arguments⟩ := exists_compound construct h
    obtain ⟨bs, q', as, rfl, front, part, back⟩ := compileArgs_append_cons.mp arguments
    obtain rfl := Except.ok.inj (part.symm.trans (compileAt_of_compile compiled _))
    have part' := w.compileAt_onTerm compiled ((1 + before.length) :: cell)
    rw [← attributes_of_compileAt readHead] at suits ⊢
    rw [← Wrapper.decisive_relocate]
    refine ⟨(1 + before.length) :: cell, List.suffix_cons .., _, .element suits.relocate, ?_⟩
    rw [relocate, relocate_of_other_part (List.suffix_refl _) (by omega) readHead]
    exact compileAt_of_readFrom (.compound construct readHead (compileArgs_part (List.suffix_refl _) front part' back))
  | head inner ih =>
    obtain ⟨construct, construct'⟩ := construct_of_wraps inner
    obtain ⟨head, elements, rfl, readHead, arguments⟩ := exists_compound construct h
    refine (ih readHead).around (.compound · elements) .head fun below readHead' => ?_
    rw [relocate, relocateAll_of_other_parts below (.inl Nat.one_pos) arguments]
    exact .compound construct' readHead' arguments
  | part reads once inner ih => exact wrapsAt_part reads once ih h

theorem biUnique_eq : Relator.BiUnique (Eq : Position → Position → Prop) :=
  ⟨fun _ _ _ first second => first.trans second.symm, fun _ _ _ first second => first.symm.trans second⟩

theorem isMatch_eq_of_parallel {C : Position → Position → Prop} {R Q : Bindings → Bindings → Prop} {p p' : Pattern}
    (unique : Relator.BiUnique C) (runs : Matcher.Parallel C R Q (search ev p) (search ev p'))
    (start : R .empty .empty) {t : Term} {j j' : Journal} (kept : Search.KeepAlike C j.inherited j'.inherited) :
    (p.isMatch ev t j).1 = (p'.isMatch ev t j').1 := by
  have solutions : Search.Parallel C Q (p.solutions ev t .empty) (p'.solutions ev t .empty) :=
    (runs {} t .empty .empty start).map fun _ _ matched => matched.1
  rw [isMatch_eq, isMatch_eq, allMatches_eq, allMatches_eq, Bool.not_inj_iff, Bool.eq_iff_iff,
    List.isEmpty_iff_length_eq_zero, List.isEmpty_iff_length_eq_zero, (solutions.answers unique kept).length_eq]

/-- In a pattern without conditions, an element can be held, or bound to a new variable where it is not
repeated: whether a term matches is not changed by that, with any evaluator. The head must see the element in
the same way, and where order does not count, an element that is a variable must be the only one of its name. -/
theorem matchQ_wraps (compiled : compile P = .ok p) (unguarded : p.guards = []) (wraps : P.Wraps ev w ys P')
    (fresh : ∀ x ∈ w.names, P.every (!·.isSymbol x) = true ∧ optionOf? x = none)
    (alone : ∀ y ∈ ys, p.names.count y = 1 ∧ optionOf? y = none) (t : Term) (j j' : Journal) :
    (matchQ ev P t j).1 = (matchQ ev P' t j').1 := by
  obtain ⟨d, -, p', inner, compiled'⟩ := wrapsAt_of_wraps wraps compiled
  have clear : Clear w ys p :=
    ⟨fun x new => not_mem_names_of_compileAt (fresh x new).1 compiled, fun y own => Nat.le_of_eq (alone y own).1,
      unguarded⟩
  have unmarked : ∀ z ∈ w.names ++ ys, optionOf? z = none := by
    intro z member
    rcases List.mem_append.mp member with new | own
    · exact (fresh z new).2
    · exact (alone z own).2
  have wrapped : (p.isMatch ev t j.forget).1 = (p'.isMatch ev t j.forget).1 :=
    isMatch_eq_of_parallel biUnique_eq (inner.parallel clear unmarked) ⟨fun _ _ => rfl, fun _ _ => rfl⟩
      fun _ _ same => same ▸ rfl
  have moved : (p'.isMatch ev t j.forget).1 =
      ((p'.relocate (Position.insert d w.argument)).isMatch ev t j'.forget).1 :=
    isMatch_eq_of_parallel (Position.biUnique_insert d w.argument)
      (parallel_relocate (fun _ _ => rfl) (.eq p'.names p'.guards)) rfl fun _ _ _ => rfl
  rw [matchQ_of_compile compiled, matchQ_of_compile compiled', wrapped, moved]

def flatOrUnordered : Evaluator where
  evaluate := id
  attributes name :=
    if name = "f" then { orderless := true }
    else if name = "g" then { flat := true }
    else if name = "h" then { flat := true, orderless := true }
    else {}

/-- In `k[h[x_, l[_]]]`, with `h` flat and without order, `l[_]` can be held. -/
theorem matchQ_wraps_held :
    (matchQ flatOrUnordered (.call "k" [.call "h" [.call "Pattern" [.symbol "x", .call "Blank" []],
        .call "l" [.call "Blank" []]]]) (.call "k" [.call "h" [.call "l" [.symbol "a"], .symbol "b"]]) {}).1 =
      (matchQ flatOrUnordered (.call "k" [.call "h" [.call "Pattern" [.symbol "x", .call "Blank" []],
        .call "HoldPattern" [.call "l" [.call "Blank" []]]]])
        (.call "k" [.call "h" [.call "l" [.symbol "a"], .symbol "b"]]) {}).1 := by
  have suits : Wrapper.hold.Suits (flatOrUnordered.headAttributes (.symbol "h"))
      (.compound (.literal (.symbol "l")) [.wildcard .one none]) := ⟨rfl, fun _ => rfl, fun _ => rfl⟩
  have inner : Term.Wraps flatOrUnordered .hold []
      (.call "h" [.call "Pattern" [.symbol "x", .call "Blank" []], .call "l" [.call "Blank" []]])
      (.call "h" [.call "Pattern" [.symbol "x", .call "Blank" []],
        .call "HoldPattern" [.call "l" [.call "Blank" []]]]) :=
    @Term.Wraps.element _ _ _ _ _ [_] [] rfl rfl suits
  exact matchQ_wraps rfl rfl (@Term.Wraps.part _ _ _ (.symbol "k") _ _ [] [] rfl nofun inner) (by decide) (by decide)
    _ {} {}

/-- Whether the term matches with an element `q` in its place, and with a wrapper around the element. -/
def bothWays (ev : Evaluator) (w : Wrapper) (q : Term) (around : Term → Term) (t : Term) :
    Option Bool × Option Bool :=
  ((matchQ ev (around q) t {}).1.toOption, (matchQ ev (around (w.onTerm q)) t {}).1.toOption)

/-- The wrapper makes a difference for patterns of which just one thing is otherwise. -/
theorem matchQ_wraps_differs :
    -- `k[Repeated[l[_]]]` and `k[l[a], l[b]]`: a new variable is shared by the repetitions.
    bothWays flatOrUnordered (.named "x") (.call "Blank" [])
        (fun q => .call "k" [.call "Repeated" [.call "l" [q]]])
        (.call "k" [.call "l" [.symbol "a"], .call "l" [.symbol "b"]]) = (some true, some false) ∧
    -- `g[_, b]` and `g[a, c, b]`: under a flat head, what is held takes one argument only.
    bothWays flatOrUnordered .hold (.call "Blank" []) (fun q => .call "g" [q, .symbol "b"])
        (.call "g" [.symbol "a", .symbol "c", .symbol "b"]) = (some true, some false) ∧
    -- `g[Except[d], b]` and `g[a, c, b]`: under a flat head, what has a name takes several arguments.
    bothWays flatOrUnordered (.named "x") (.call "Except" [.symbol "d"]) (fun q => .call "g" [q, .symbol "b"])
        (.call "g" [.symbol "a", .symbol "c", .symbol "b"]) = (some false, some true) ∧
    -- `g[True, b]` and `g[True, b]`, the first a symbol and the other a truth value: under a flat head, what has a
    -- name is not compared by structure beforehand.
    bothWays flatOrUnordered (.named "x") (.symbol "True") (fun q => .call "g" [q, .symbol "b"])
        (.call "g" [.boolean true, .symbol "b"]) = (some false, some true) ∧
    -- `f[x_, Except[x_]]` and `f[a, b]`: where order does not count, what is held is matched first.
    bothWays flatOrUnordered .hold (.call "Except" [.call "Pattern" [.symbol "x", .call "Blank" []]])
        (fun q => .call "f" [.call "Pattern" [.symbol "x", .call "Blank" []], q])
        (.call "f" [.symbol "a", .symbol "b"]) = (some true, some false) ∧
    -- `f[Except[x_], k[x_]]` and `f[b, k[a]]`: where order does not count, what has a name is matched later.
    bothWays flatOrUnordered (.named "y") (.call "k" [.call "Pattern" [.symbol "x", .call "Blank" []]])
        (fun q => .call "f" [.call "Except" [.call "Pattern" [.symbol "x", .call "Blank" []]], q])
        (.call "f" [.symbol "b", .call "k" [.symbol "a"]]) = (some true, some false) ∧
    -- `h[x_, x_]` and `h[a, b, b, a]`: the second `x` is looked for among the arguments, but not in `y:x_`.
    bothWays flatOrUnordered (.named "y") (.call "Pattern" [.symbol "x", .call "Blank" []])
        (fun q => .call "h" [.call "Pattern" [.symbol "x", .call "Blank" []], q])
        (.call "h" [.symbol "a", .symbol "b", .symbol "b", .symbol "a"]) = (some true, some false) ∧
    -- `f[x__, x__]` and `f[Sequence[a], Sequence[a]]`: the same, with what is held.
    bothWays flatOrUnordered .hold (.call "Pattern" [.symbol "x", .call "BlankSequence" []])
        (fun q => .call "f" [.call "Pattern" [.symbol "x", .call "BlankSequence" []], q])
        (.call "f" [.sequence [.symbol "a"], .sequence [.symbol "a"]]) = (some false, some true) ∧
    -- `k[Repeated[f[x__]]]` and `k[f[Sequence[a]], f[Sequence[a]]]`: the same, with what is repeated.
    bothWays flatOrUnordered .hold (.call "Pattern" [.symbol "x", .call "BlankSequence" []])
        (fun q => .call "k" [.call "Repeated" [.call "f" [q]]])
        (.call "k" [.call "f" [.sequence [.symbol "a"]], .call "f" [.sequence [.symbol "a"]]]) =
      (some false, some true) ∧
    -- `k[OptionsPattern[o -> h[b, a]], h[_option_o:_, c]]` and `k[h[a, b, c]]`: an option is a variable.
    bothWays flatOrUnordered (.named "y") (.call "Pattern" [.symbol "_option_o", .call "Blank" []])
        (fun q => .call "k" [.call "OptionsPattern"
          [.call "Rule" [.symbol "o", .call "h" [.symbol "b", .symbol "a"]]], .call "h" [q, .symbol "c"]])
        (.call "k" [.call "h" [.symbol "a", .symbol "b", .symbol "c"]]) = (some true, some false) := by
  decide

end Pattern

end TermRewriting
