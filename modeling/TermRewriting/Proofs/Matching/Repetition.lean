import TermRewriting.Proofs.Matching.OneIdentity
import TermRewriting.Proofs.Matching.Relocation
import TermRewriting.Proofs.Matching.Sequence

/-! Repetition. A pattern that is repeated goes through a run one item at a time, as that many copies of
it go through the arguments of an application. -/

namespace TermRewriting

namespace Pattern

variable {ev : Evaluator} {p : Pattern} {t : Term} {b : Bindings}

theorem explicit_of_optionPatterns (none : p.optionPatterns = []) : p.Explicit := by
  have ofAll {ps : List Pattern} (each : ∀ p ∈ ps, p.optionPatterns = [] → p.Explicit)
      (none : optionPatternsOfAll ps = []) (p : Pattern) (member : p ∈ ps) : p.Explicit :=
    each p member (optionPatternsOfAll_eq_nil.mp none p member)
  induction p using Pattern.induct with
  | wildcard span head => exact .wildcard span head
  | named name _ ih => exact .named name (ih none)
  | optional _ inline ih => exact .optional inline (ih none)
  | alternatives _ ih => exact .alternatives (ofAll ih none)
  | except _ _ excluded fallback =>
    obtain ⟨noneExcluded, noneFallback⟩ := List.append_eq_nil_iff.mp none
    exact .except (excluded noneExcluded) (fallback noneFallback)
  | verbatim t => exact .verbatim t
  | hold _ ih => exact .hold (ih none)
  | test _ predicate ih => exact .test predicate (ih none)
  | condition _ guard ih => exact .condition guard (ih none)
  | repeated _ least most ih => exact .repeated least most (ih none)
  | options cell defaults => cases none
  | compound _ _ head ih =>
    obtain ⟨noneHead, noneElements⟩ := List.append_eq_nil_iff.mp none
    exact .compound (head noneHead) (ofAll ih noneElements)
  | literal t => exact .literal t

/-- Where a pattern stands only matters to options and to what is left out. -/
theorem search_place (none : p.optionPatterns = []) (present : t.isEmptySequence = false)
    (place place' : Option Place) (whole : Bool) :
    search ev p ⟨place, whole⟩ t b = search ev p ⟨place', whole⟩ t b := by
  induction p using Pattern.induct generalizing b whole with
  | wildcard span head => cases span <;> rfl
  | named name inner ih =>
    have value (place : Option Place) : valueOf ev inner place t = .one t := by
      unfold valueOf
      split <;> simp [present]
    simp only [search, value, ih none]
  | optional inner inline ih => simp only [search, present, Bool.false_eq_true, if_false]
  | alternatives choices ih =>
    exact searchAny_congr fun p member => ih p member (optionPatternsOfAll_eq_nil.mp none p member) whole
  | except excluded fallback excluded_ih fallback_ih =>
    obtain ⟨noneExcluded, noneFallback⟩ := List.append_eq_nil_iff.mp none
    simp only [search, excluded_ih noneExcluded, fallback_ih noneFallback]
  | hold _ ih | test _ _ ih | condition _ _ ih => simp only [search, ih none]
  | options => cases none
  | verbatim | repeated | compound | literal => rfl

/-- One item is matched after another, with the bindings made before. -/
def matchEach (ev : Evaluator) (p : Pattern) (ts : List Term) (b : Bindings) : Search Bindings :=
  Search.thread (fun b t => (search ev p {} t b).map (·.bindings)) ts b

section

variable {s : Siblings} {first last : Bool} {ts : List Term} (single : p.width = .single)
include single

theorem totalWidth_replicate (n : Nat) : totalWidth (List.replicate n p) = ⟨n, some n⟩ := by
  induction n with
  | zero => rfl
  | succ n ih =>
    change p.width.add (totalWidth (List.replicate n p)) = _
    rw [ih, single]
    simp [Width.add, Width.single, Nat.add_comm]

/-- In order, a pattern for one argument takes the first of them, if any will do. -/
theorem values_splits_first (ordered : s.attributes.orderless = false) (strict : s.attributes.flat = false)
    (whole : s.whole = true) :
    (s.splits p first last (t :: ts) b).values =
      if (t :: ts).any p.mayMatch then [⟨[], [t], ts⟩] else [] := by
  have fits : s.fits p = p.mayMatch := by
    funext u
    simp [Siblings.fits, Siblings.flattens, strict]
  by_cases any : (t :: ts).any p.mayMatch = true
  · have enough : p.width.least ≤ ((t :: ts).filter (s.fits p)).length := by
      obtain ⟨u, member, passes⟩ := List.any_eq_true.mp any
      rw [single, fits]
      exact List.length_pos_iff.mpr (List.ne_nil_of_mem (List.mem_filter.mpr ⟨member, passes⟩))
    rw [Siblings.splits_eq_runs ordered enough, if_pos any, single, whole]
    simp [Search.runs, Search.sizes, Search.largest, Siblings.most, strict, single, Width.single]
  · have none : (t :: ts).filter (s.fits p) = [] := by
      rw [fits, List.filter_eq_nil_iff]
      exact fun u member passes => any (List.any_eq_true.mpr ⟨u, member, passes⟩)
    rw [if_neg any, Siblings.splits, none, single]
    rfl

/-- Copies of a pattern for one argument take the arguments one after another. -/
theorem values_distribute_copies (attributes : s.attributes = {}) (whole : s.whole = true)
    (none : p.optionPatterns = []) (compared : p.compared?.all Term.isSymbolic = true)
    {copies : List (Element Matcher)}
    (same : ∀ e ∈ copies, e.pattern = p ∧ e.matcher = search ev p) (length : copies.length = ts.length)
    (alone : ∀ t ∈ ts, t.isSequence = false) (symbolic : ∀ t ∈ ts, t.isSymbolic = true) :
    (s.distribute first copies ts b).values.map (·.bindings) = (p.matchEach ev ts b).values := by
  induction copies generalizing first ts b with
  | nil =>
    obtain rfl := List.length_eq_zero_iff.mp length.symm
    simp [Siblings.distribute, matchEach]
  | cons e later ih =>
    obtain ⟨t, ts, rfl⟩ := List.exists_cons_of_length_eq_add_one length.symm
    obtain ⟨rfl, matcher⟩ := same e (by simp)
    have present : t.isEmptySequence = false := by
      simp [Term.isEmptySequence, Term.isCallWith, show t.isCall "Sequence" = false from alone t (by simp)]
    have here (place : Option Place) : search ev e.pattern ⟨place, true⟩ t b = search ev e.pattern {} t b :=
      search_place none present place _ true
    have rest (b : Bindings) :
        (s.distribute false later ts b).values.map (·.bindings) = (e.pattern.matchEach ev ts b).values :=
      ih (fun e member => same e (by simp [member])) (by simpa using length)
        (fun u member => alone u (by simp [member])) fun u member => symbolic u (by simp [member])
    have step : (e.pattern.matchEach ev (t :: ts) b).values =
        (search ev e.pattern {} t b).values.flatMap fun m => (e.pattern.matchEach ev ts m.bindings).values := by
      simp [matchEach, List.flatMap_map]
    rw [Siblings.values_distribute_cons, values_splits_first single (by rw [attributes]) (by rw [attributes]) whole,
      step]
    by_cases any : (t :: ts).any e.pattern.mayMatch = true
    · rw [if_pos any]
      simp [Siblings.presentations, matcher, here, rest]
    · have fails : e.pattern.mayMatch t = false := by simp_all
      rw [if_neg any, values_search_of_mayMatch single compared (symbolic t (by simp)) fails]
      rfl

end

section

variable {f : String} {ts : List Term} (attributes : ev.attributes f = {})
include attributes

theorem values_search_copies (single : p.width = .single) (none : p.optionPatterns = [])
    (compared : p.compared?.all Term.isSymbolic = true) (alone : ∀ t ∈ ts, t.isSequence = false)
    (symbolic : ∀ t ∈ ts, t.isSymbolic = true) :
    (search ev (.compound (.literal (.symbol f)) (List.replicate ts.length p)) {} (.call f ts) b).values.map
      (·.bindings) = (p.matchEach ev ts b).values := by
  have admits : (totalWidth (List.replicate ts.length p)).admits ts.length = true := by
    rw [totalWidth_replicate single]
    simp [Width.admits]
  have same (e : Element Matcher) (member : e ∈ elementsFrom ev 1 (List.replicate ts.length p)) :
      e.pattern = p ∧ e.matcher = search ev p := by
    obtain ⟨inList, matcher⟩ := mem_elementsFrom member
    obtain rfl := List.eq_of_mem_replicate inList
    exact ⟨rfl, matcher⟩
  have length : (elementsFrom ev 1 (List.replicate ts.length p)).length = ts.length := by
    rw [← List.length_map (·.pattern), map_pattern_elementsFrom, List.length_replicate]
  rw [search_call, admits, Bool.or_true, if_pos rfl, attributes]
  exact values_distribute_copies single rfl rfl none compared same length alone symbolic

theorem values_search_repeated (w : Width) (alone : ∀ t ∈ ts, t.isSequence = false) :
    (search ev (.compound (.literal (.symbol f)) [.repeated p w.least w.most]) {} (.call f ts) b).values.map
      (·.bindings) = if w.admits ts.length then (p.matchEach ev ts b).values else [] := by
  have width : totalWidth [.repeated p w.least w.most] = w := by
    change w.add ⟨0, some 0⟩ = w
    obtain ⟨least, _ | most⟩ := w <;> simp [Width.add]
  have passes : ts.filter (Pattern.repeated p w.least w.most).mayMatch = ts :=
    List.filter_eq_self.mpr fun _ _ => rfl
  rw [search_call, attributes, width]
  by_cases admits : w.admits ts.length = true
  · have room : (Pattern.repeated p w.least w.most).width.admits ts.length = true := admits
    rw [admits, Bool.or_true, if_pos rfl, if_pos rfl]
    refine (values_matchAll_single ⟨.repeated p w.least w.most, 1, _⟩ (.symbol f) ts b).trans ?_
    rw [passes, if_pos ⟨room, (Width.admits_iff.mp admits).1⟩]
    simp only [search, Term.items_ofRun alone]
    rw [if_pos admits, Search.values_map, List.map_map]
    exact List.map_id _
  · rw [if_neg (by simpa using admits), if_neg admits]
    rfl

end

def rangeTerm (w : Width) : Term :=
  .list [.integer w.least, w.most.elim (.symbol "Infinity") fun most => .integer most]

theorem range?_rangeTerm {w : Width} (ordered : w.most.all (w.least ≤ ·) = true) (least : Nat) :
    range? least (rangeTerm w) = some w := by
  have count (n : Nat) : count? (.integer n) = some n := by simp [count?, Term.int?]
  obtain ⟨lo, _ | hi⟩ := w
  · simp [range?, rangeTerm, Term.list, Term.call, Term.isCall, Term.isSymbol, Term.symbol?, Term.args, count]
  · have le : lo ≤ hi := by simpa using ordered
    simp [range?, rangeTerm, Term.list, Term.call, Term.isCall, Term.isSymbol, Term.symbol?, Term.args, count, le]

theorem compile_call {f : String} (plain : Construct.ofName? f = none) {args : List Term} {ps : List Pattern}
    (elements : compileArgs [] 1 args = .ok ps) :
    compile (.call f args) = .ok (.compound (.literal (.symbol f)) ps) :=
  compileAt_of_readFrom (.compound plain rfl elements)

section

variable {f : String} {source : Term} {w : Width} (plain : Construct.ofName? f = none)
  (compiled : compile source = .ok p) (none : p.optionPatterns = [])
include compiled none

theorem compileAt_of_optionPatterns (cell : Position) : compileAt cell source = .ok p := by
  have same : p.relocate (· ++ cell) = p := relocate_eq_self (by simp [none])
  exact same ▸ compileAt_of_compile compiled cell

theorem compileArgs_replicate (cell : Position) (number n : Nat) :
    compileArgs cell number (List.replicate n source) = .ok (List.replicate n p) := by
  induction n generalizing number with
  | zero => rfl
  | succ n ih =>
    rw [List.replicate_succ, compileArgs, compileAt_of_optionPatterns compiled none, ih]
    rfl

include plain

theorem compile_copies (n : Nat) :
    compile (.call f (List.replicate n source)) = .ok (.compound (.literal (.symbol f)) (List.replicate n p)) :=
  compile_call plain (compileArgs_replicate compiled none [] 1 n)

theorem compile_repeated (ordered : w.most.all (w.least ≤ ·) = true) :
    compile (.call f [.call "Repeated" [source, rangeTerm w]]) =
      .ok (.compound (.literal (.symbol f)) [.repeated p w.least w.most]) := by
  have repeated : compileAt [1] (.call "Repeated" [source, rangeTerm w]) = .ok (.repeated p w.least w.most) :=
    compileAt_of_readFrom (.repeatedRange rfl (compileAt_of_optionPatterns compiled none [1, 1])
      (range?_rangeTerm ordered _))
  refine compile_call plain ?_
  rw [compileArgs, repeated]
  rfl

end

/-- Under a head without attributes, a repeated pattern for one argument matches like as many copies of
it as there are arguments, in the same ways and in the same order, provided that so many repetitions are
asked for. So the copies share their variables, and each sees what those before it have bound. -/
theorem allMatches_repeated {f : String} {source : Term} {w : Width} {ts : List Term}
    (plain : Construct.ofName? f = none) (attributes : ev.attributes f = {})
    (compiled : compile source = .ok p) (single : p.width = .single) (none : p.optionPatterns = [])
    (symbolic : source.isSymbolic = true) (ordered : w.most.all (w.least ≤ ·) = true)
    (alone : ∀ t ∈ ts, t.isSequence = false) (symbolicArgs : ∀ t ∈ ts, t.isSymbolic = true)
    (j j' : Journal) :
    ∃ repetition copies, compile (.call f [.call "Repeated" [source, rangeTerm w]]) = .ok repetition ∧
      compile (.call f (List.replicate ts.length source)) = .ok copies ∧
      (repetition.allMatches ev (.call f ts) j).1 =
        if w.admits ts.length then (copies.allMatches ev (.call f ts) j').1 else [] := by
  refine ⟨_, _, compile_repeated plain compiled none ordered, compile_copies plain compiled none _, ?_⟩
  have compared : p.compared?.all Term.isSymbolic = true := compared?_of_compileAt symbolic compiled
  have explicit : p.Explicit := explicit_of_optionPatterns none
  have repetition : (compound (.literal (.symbol f)) [.repeated p w.least w.most]).Explicit :=
    .compound (.literal _) (by simpa using explicit.repeated w.least w.most)
  have copies : (compound (.literal (.symbol f)) (List.replicate ts.length p)).Explicit :=
    .compound (.literal _) fun q member => List.eq_of_mem_replicate member ▸ explicit
  rw [allMatches_eq, allMatches_eq, repetition.answers_solutions, copies.answers_solutions,
    values_search_repeated attributes w alone,
    values_search_copies attributes single none compared alone symbolicArgs]

/-- Asked for two or three times, `x_` matches two arguments like two copies of it, which bind `x` once. -/
theorem allMatches_repeated_shared :
    ∃ repetition copies,
      compile (.call "f" [.call "Repeated" [.call "Pattern" [.symbol "x", .call "Blank" []], rangeTerm ⟨2, some 3⟩]]) =
        .ok repetition ∧
      compile (.call "f" (List.replicate 2 (.call "Pattern" [.symbol "x", .call "Blank" []]))) = .ok copies ∧
      (repetition.allMatches .bare (.call "f" [.symbol "a", .symbol "a"]) {}).1 =
        if Width.admits ⟨2, some 3⟩ 2 then (copies.allMatches .bare (.call "f" [.symbol "a", .symbol "a"]) {}).1
        else [] := by
  have alone : ∀ t ∈ [Term.symbol "a", .symbol "a"], t.isSequence = false := by decide
  have symbolic : ∀ t ∈ [Term.symbol "a", .symbol "a"], t.isSymbolic = true := by decide
  exact allMatches_repeated (p := .named "x" (.wildcard .one none)) rfl rfl rfl rfl rfl rfl rfl alone symbolic {} {}

end Pattern

end TermRewriting
