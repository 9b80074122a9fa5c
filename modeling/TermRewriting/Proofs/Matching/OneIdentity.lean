import TermRewriting.Proofs.Compile
import TermRewriting.Proofs.Matching.Distribution
import TermRewriting.Proofs.Matching.Spelling
import TermRewriting.Proofs.Matching.Strategy

/-! Heads with one identity. A term that is no application of such a head matches a pattern as if it
were the only argument of one: the one element that is required takes it, and all others are left out. -/

namespace TermRewriting

namespace Pattern

theorem width_of_isOptional {p : Pattern} (optional : p.isOptional = true) : p.width = ⟨0, some 1⟩ := by
  induction p using Pattern.induct with
  | named _ _ ih => exact ih optional
  | optional => rfl
  | _ => cases optional

end Pattern

namespace Siblings

variable {s : Siblings} {p : Pattern} {first last : Bool} {t : Term} {b : Bindings}

/-- What has room for one argument can take all there are. -/
theorem largest_most {all : Nat} (few : all ≤ 1) (one : p.width.most = some 1) :
    Search.largest all (s.most p) = all := by
  rw [most, one]
  split
  · rfl
  · exact Nat.min_eq_left few

section

variable (ordered : s.attributes.orderless = false) (whole : s.whole = true)
include ordered whole

/-- An element that may be left out leaves the argument for later first, and then takes it. -/
theorem values_splits_optional (optional : p.isOptional = true) :
    (s.splits p first false [t] b).values = [⟨[], [], [t]⟩, ⟨[], [t], []⟩] := by
  have width := Pattern.width_of_isOptional optional
  have largest : Search.largest 1 (s.most p) = 1 := largest_most (Nat.le_refl 1) (by rw [width])
  rw [splits_eq_runs ordered (by simp [width]), width, whole]
  simp only [Search.runs, Search.sizes, largest, List.length_singleton, Bool.not_true, Bool.and_false,
    Bool.not_false, Bool.false_eq_true, if_false, if_true,
    Search.values_bind, Search.values_map, Search.values_ofList]
  rfl

theorem values_splits_optional_nil (optional : p.isOptional = true) :
    (s.splits p first last [] b).values = [⟨[], [], []⟩] := by
  have width := Pattern.width_of_isOptional optional
  have largest : Search.largest 0 (s.most p) = 0 := largest_most (Nat.zero_le 1) (by rw [width])
  rw [splits_eq_runs ordered (by simp [width]), width, whole]
  simp [Search.runs, Search.sizes, largest]

theorem values_splits_single (single : p.width = .single) :
    (s.splits p first last [t] b).values = if s.fits p t then [⟨[], [t], []⟩] else [] := by
  by_cases fits : s.fits p t = true
  · have largest : Search.largest 1 (s.most p) = 1 := largest_most (Nat.le_refl 1) (by rw [single, Width.single])
    rw [splits_eq_runs ordered (by simp [single, fits, Width.single]), single, whole]
    simp [Search.runs, Search.sizes, largest, Width.single, fits]
  · simp [splits, single, Width.single, fits]

end

theorem values_presentations_nil (optional : p.isOptional = true) (ordered : s.attributes.orderless = false) :
    (s.presentations p []).values = [.sequence []] := by
  simp [presentations, Pattern.width_of_isOptional optional, ordered]

theorem values_distribute_few {elements : List (Element Matcher)} {e : Element Matcher}
    (member : e ∈ elements) (least : 0 < e.pattern.width.least) : (s.distribute first elements [] b).values = [] := by
  induction elements generalizing first b with
  | nil => cases member
  | cons e' later ih =>
    rw [← List.map_eq_nil_iff (f := (·.bindings)), values_distribute_cons]
    rcases List.mem_cons.mp member with rfl | inLater
    · simp [splits, least]
    · refine List.flatMap_eq_nil_iff.mpr fun split inSplits => ?_
      have none : split.after = [] :=
        (List.append_eq_nil_iff.mp (List.sublist_nil.mp (rearranged_of_mem_splits inSplits).2)).2
      simp [none, ih inLater]

/-- The element is matched with the term, or left out if that may be. -/
def loneStep (head : Term) (count : Nat) (t : Term) (b : Bindings) (e : Element Matcher) : Search Bindings :=
  (e.matcher ⟨some ⟨head, e.position, count⟩, true⟩ (if e.pattern.isOptional then .sequence [] else t) b).map
    (·.bindings)

section

variable (ordered : s.attributes.orderless = false) (whole : s.whole = true)
include ordered whole

/-- Elements that may all be left out are left out if there are no arguments. -/
theorem values_distribute_optional {elements : List (Element Matcher)}
    (optional : ∀ e ∈ elements, e.pattern.isOptional = true) (t : Term) :
    (s.distribute first elements [] b).values.map (·.bindings) =
      (Search.thread (loneStep s.head s.count t) elements b).values := by
  induction elements generalizing first b with
  | nil => simp [distribute]
  | cons e later ih =>
    have here := optional e (by simp)
    rw [values_distribute_cons, values_splits_optional_nil ordered whole here]
    simp only [List.flatMap_cons, List.flatMap_nil, List.append_nil, values_presentations_nil here ordered,
      Search.values_thread_cons, ih fun e member => optional e (by simp [member])]
    simp [loneStep, here, List.flatMap_map]

/-- The required element takes the only argument, as all others can only be left out. -/
theorem values_distribute_lone {elements : List (Element Matcher)} {q : Element Matcher}
    (required : elements.filter (!·.pattern.isOptional) = [q]) (single : q.pattern.width = .single)
    (passes : s.fits q.pattern t = false → ∀ c b, (q.matcher c t b).values = []) :
    (s.distribute first elements [t] b).values.map (·.bindings) =
      (Search.thread (loneStep s.head s.count t) elements b).values := by
  induction elements generalizing first b with
  | nil => cases required
  | cons e later ih =>
    by_cases here : e.pattern.isOptional = true
    · rw [List.filter_cons_of_neg (by simp [here])] at required
      have inLater : q ∈ later := List.mem_of_mem_filter (required ▸ List.mem_singleton_self q)
      have more : later.isEmpty = false := by simpa using List.ne_nil_of_mem inLater
      -- Had this element taken the argument, none would be left for the one that is required.
      have taken (b : Bindings) : (s.distribute false later [] b).values = [] :=
        values_distribute_few inLater (by simp [single, Width.single])
      rw [values_distribute_cons, more, values_splits_optional ordered whole here]
      simp only [List.flatMap_cons, List.flatMap_nil, List.append_nil, values_presentations_nil here ordered,
        Search.values_thread_cons, ih required, taken]
      simp [loneStep, here, List.flatMap_map]
    · rw [List.filter_cons_of_pos (by simp [here]), List.cons.injEq] at required
      obtain ⟨rfl, none⟩ := required
      have optional (o : Element Matcher) (member : o ∈ later) : o.pattern.isOptional = true := by
        simpa using List.filter_eq_nil_iff.mp none o member
      rw [values_distribute_cons, values_splits_single ordered whole single]
      by_cases fits : s.fits e.pattern t = true
      · simp only [fits, if_true, List.flatMap_cons, List.flatMap_nil, List.append_nil, presentations,
          Search.values_one, values_distribute_optional ordered whole optional t, Search.values_thread_cons]
        simp [loneStep, here, List.flatMap_map]
      · simp [fits, loneStep, here, passes (by simpa using fits)]

end

end Siblings

namespace Pattern

variable {ev : Evaluator} {p : Pattern} {c : Context} {t : Term} {b : Bindings}

/-- A term that fails the test beforehand does not match, if no truth values are compared. -/
theorem values_search_of_mayMatch (single : p.width = .single)
    (compared : p.compared?.all Term.isSymbolic = true) (symbolic : t.isSymbolic = true)
    (fails : p.mayMatch t = false) : (search ev p c t b).values = [] := by
  induction p using Pattern.induct generalizing c b with
  | wildcard span head =>
    cases span with
    | one =>
      cases head with
      | none => cases fails
      | some h =>
        have other : t.isHeadedBy h = false := fails
        simp [search, headFits, other]
    | _ => cases single
  | named name inner ih =>
    have nothing (b : Bindings) : (search ev inner c t b).values = [] := ih single compared fails
    rw [search, Search.values_bind, List.flatMap_eq_nil_iff]
    intro value _
    split
    · rw [Search.values_ite, nothing]
      simp
    · exact nothing _
  | hold inner ih => exact ih single compared fails
  | test inner predicate ih | condition inner guard ih =>
    rw [search, Search.values_filter, ih single compared fails]
    rfl
  | verbatim v | literal v =>
    have other : v.same t = false := (Term.same_eq_beq_of_isSymbolic compared symbolic).trans fails
    simp [search, other]
  | options => cases single
  | _ => cases fails

/-- What is compared beforehand is part of the term that the pattern was read from. -/
theorem compared?_of_compileAt {source : Term} (symbolic : source.isSymbolic = true) {cell : Position}
    (compiled : compileAt cell source = .ok p) : p.compared?.all Term.isSymbolic = true := by
  induction source using Term.induct generalizing cell p with
  | app head args _ ih =>
    obtain ⟨-, -, inArgs⟩ := Term.every_app.mp symbolic
    have part {t : Term} {cell : Position} {p : Pattern} (compiled : compileAt cell t = .ok p)
        (member : t ∈ args) : p.compared?.all Term.isSymbolic = true := ih t member (inArgs t member) compiled
    cases readFrom_of_compileAt compiled with
    | literal isAtom => cases isAtom
    | wildcard =>
      rw [compared?, Option.all_eq_true]
      exact fun head first => inArgs head (List.mem_of_mem_head? first)
    | verbatim => exact inArgs _ (by simp)
    | named _ _ inner | hold _ inner | test _ inner | condition _ inner =>
      rw [compared?]
      exact part inner (by simp)
    | _ => rfl
  | _ =>
    obtain rfl := Except.ok.inj compiled
    exact symbolic

/-- Each element that is required has room for one argument, and the others need none. -/
theorem admits_totalWidth {ps : List Pattern}
    (single : ∀ p ∈ ps, p.isOptional = false → p.width = .single) :
    (totalWidth ps).admits (ps.filter (!·.isOptional)).length = true := by
  induction ps with
  | nil => rfl
  | cons p ps ih =>
    have later := ih fun q member => single q (by simp [member])
    cases optional : p.isOptional with
    | true =>
      have here : p.width.admits 0 = true := by
        rw [width_of_isOptional optional]
        rfl
      rw [List.filter_cons_of_neg (by simp [optional]), ← Nat.zero_add (List.length _)]
      exact Width.admits_add here later
    | false =>
      have here : p.width.admits 1 = true := by
        rw [single p (by simp) optional]
        rfl
      rw [List.filter_cons_of_pos (by simp [optional]), List.length_cons, Nat.add_comm]
      exact Width.admits_add here later

section

variable {h : String} {ps : List Pattern}

theorem matchApplication_apart (apart : t.isHeadedBy (.symbol h) = false) (symbolic : t.isSymbolic = true)
    (elements : List (Element Matcher)) (attributes : Attributes) (whole : Bool) :
    matchApplication (search ev (.literal (.symbol h))) elements attributes whole t b = .done := by
  cases t with
  | app head ts =>
    have inHead : head.isSymbolic = true := (Term.every_app.mp symbolic).2.1
    have different : (Term.symbol h).same head = false := by
      refine Bool.eq_false_iff.mpr fun same => ?_
      have eq : Term.symbol h = head.canonical := (Term.same_iff.mp same).2
      cases head with
      | symbol name =>
        obtain rfl := Term.symbol.inj eq
        exact absurd (Term.isHeadedBy_call h ts) (by simp [Term.call, apart])
      | boolean => cases inHead
      | _ => cases eq
    rw [matchApplication, search, different]
    simp [Search.bind]
  | _ => rfl

/-- A term that is no application of a head with one identity is matched by the required element. -/
theorem search_lone (oneIdentity : (ev.attributes h).oneIdentity = true) (several : 2 ≤ ps.length)
    (required : (ps.filter (!·.isOptional)).length = 1) (other : t ≠ .symbol h)
    (apart : t.isHeadedBy (.symbol h) = false) (alone : t.isSequence = false)
    (symbolic : t.isSymbolic = true) :
    search ev (.compound (.literal (.symbol h)) ps) c t b =
      (Search.thread (Siblings.loneStep (.symbol h) ps.length t) (elementsFrom ev 1 ps) b).map (⟨·, {}⟩) := by
  have attributes : (literal (.symbol h)).attributes ev = ev.attributes h := rfl
  have alone' : standsAlone (.symbol h) ((elementsFrom ev 1 ps).map (·.pattern)) t = true := by
    have different : (t == .symbol h) = false :=
      Bool.eq_false_iff.mpr fun same => other ((Term.beq_iff_eq_of_isExact rfl t).mp same)
    simp [standsAlone, map_pattern_elementsFrom, apart, bne, different, required, several]
  rw [search, matchCompound, alone, attributes]
  simp only [Bool.false_and, Bool.false_eq_true, if_false, matchApplication_apart apart symbolic, oneIdentity, if_true]
  rw [Search.append, literal?, matchLone, alone', length_elementsFrom]
  rfl

/-- The only argument of an application is matched by the required element, and nothing is left for the
others. -/
theorem search_call_lone (ordered : (ev.attributes h).orderless = false) {q : Pattern}
    (required : ps.filter (!·.isOptional) = [q]) (single : q.width = .single)
    (compared : q.compared?.all Term.isSymbolic = true) (symbolic : t.isSymbolic = true) :
    (search ev (.compound (.literal (.symbol h)) ps) {} (.call h [t]) b).values.map (·.bindings) =
      (Search.thread (Siblings.loneStep (.symbol h) ps.length t) (elementsFrom ev 1 ps) b).values := by
  have admits : (totalWidth ps).admits 1 = true := by
    have total : (totalWidth ps).admits (ps.filter (!·.isOptional)).length = true := by
      refine admits_totalWidth fun p member needed => ?_
      have isRequired : p ∈ ps.filter (!·.isOptional) := List.mem_filter.mpr ⟨member, by simp [needed]⟩
      rw [required, List.mem_singleton] at isRequired
      rwa [isRequired]
    rwa [required] at total
  have patterns : (elementsFrom ev 1 ps).map (·.pattern) = ps := map_pattern_elementsFrom ps 1
  obtain ⟨e, needed, rfl⟩ :
      ∃ e, (elementsFrom ev 1 ps).filter (!·.pattern.isOptional) = [e] ∧ e.pattern = q := by
    rw [← patterns, List.filter_map, List.map_eq_singleton_iff] at required
    exact required
  have matcher : e.matcher = search ev e.pattern :=
    (mem_elementsFrom (List.mem_of_mem_filter (needed ▸ List.mem_singleton_self e))).2
  rw [search_call, List.length_singleton, admits, Bool.or_true, if_pos rfl, Siblings.matchAll]
  simp only [ordered, Element.inOrder]
  refine Siblings.values_distribute_lone ordered rfl needed single fun fails c b => ?_
  rw [matcher]
  exact values_search_of_mayMatch single compared symbolic (Bool.or_eq_false_iff.mp fails).2

theorem compared?_of_mem {source : Term} (symbolic : source.isSymbolic = true) {head : Pattern}
    (compiled : compile source = .ok (.compound head ps)) :
    ∀ p ∈ ps, p.compared?.all Term.isSymbolic = true := by
  intro p member
  cases readFrom_of_compileAt compiled with
  | compound _ _ arguments =>
    obtain ⟨t, inArgs, _, compiled⟩ := exists_of_mem_compileArgs arguments p member
    exact compared?_of_compileAt ((Term.every_app.mp symbolic).2.2 t inArgs) compiled

/-- Under a head with one identity whose arguments keep their order, a term that is no application of
the head matches as if it were the only argument of one, in the same ways and in the same order. -/
theorem allMatches_oneIdentity {source : Term} (symbolic : source.isSymbolic = true)
    (compiled : compile source = .ok (.compound (.literal (.symbol h)) ps)) (explicit : ∀ p ∈ ps, p.Explicit)
    (oneIdentity : (ev.attributes h).oneIdentity = true) (ordered : (ev.attributes h).orderless = false)
    (several : 2 ≤ ps.length) {q : Pattern} (required : ps.filter (!·.isOptional) = [q])
    (single : q.width = .single) (other : t ≠ .symbol h) (apart : t.isHeadedBy (.symbol h) = false)
    (alone : t.isSequence = false) (plain : t.isSymbolic = true) (j j' : Journal) :
    ((compound (.literal (.symbol h)) ps).allMatches ev t j).1 =
      ((compound (.literal (.symbol h)) ps).allMatches ev (.call h [t]) j').1 := by
  have explicit : (compound (.literal (.symbol h)) ps).Explicit := .compound (.literal _) explicit
  have inList : q ∈ ps := List.mem_of_mem_filter (required ▸ List.mem_singleton_self q)
  rw [allMatches_eq, allMatches_eq, explicit.answers_solutions, explicit.answers_solutions,
    search_call_lone ordered required single (compared?_of_mem symbolic compiled q inList) plain,
    search_lone oneIdentity several (by rw [required]; rfl) other apart alone plain, Search.values_map,
    List.map_map]
  exact List.map_id _

end

/-- A sum of one term is that term, and what is left out of a sum is zero. -/
def identitySums : Evaluator :=
  { Evaluator.bare with
    attributes := fun name => if name = "Plus" then { flat := true, oneIdentity := true } else {}
    defaultValue := fun key => if key.symbol = "Plus" then some (.integer 0) else none }

/-- The sum of `x_` and what may be left out matches `a` and the sum of `a` alone. -/
theorem allMatches_oneIdentity_sum :
    ∃ p, compile (.call "Plus" [.call "Pattern" [.symbol "x", .call "Blank" []],
        .call "Optional" [.call "Pattern" [.symbol "y", .call "Blank" []]]]) = .ok p ∧
      (p.allMatches identitySums (.symbol "a") {}).1.isEmpty = false ∧
      (p.allMatches identitySums (.symbol "a") {}).1 =
        (p.allMatches identitySums (.call "Plus" [.symbol "a"]) {}).1 := by
  have compiled : compile (.call "Plus" [.call "Pattern" [.symbol "x", .call "Blank" []],
      .call "Optional" [.call "Pattern" [.symbol "y", .call "Blank" []]]]) =
      .ok (.compound (.literal (.symbol "Plus"))
        [.named "x" (.wildcard .one none), .optional (.named "y" (.wildcard .one none)) none]) := rfl
  have explicit (x : String) : Pattern.Explicit (.named x (.wildcard .one none)) := .named x (.wildcard ..)
  refine ⟨_, compiled, by decide, ?_⟩
  exact allMatches_oneIdentity (by decide) compiled (by simp [explicit, Explicit.optional]) rfl rfl (by decide)
    rfl rfl (by simp) rfl rfl rfl {} {}

end Pattern

end TermRewriting
