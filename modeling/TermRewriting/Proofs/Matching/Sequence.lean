import TermRewriting.Proofs.Matching.Simple
import TermRewriting.Proofs.Matching.Strategy

/-! Runs of siblings matched on their own. A run is presented as a sequence then; as the arguments
of an application, it is presented to the one element pattern in the same way unless it consists of
a single argument. -/

namespace TermRewriting

namespace Search

variable {α β : Type}

theorem flatMap_eq_of_nodup [DecidableEq α] {xs : List α} {f : α → List β} {a : α} (nodup : xs.Nodup)
    (others : ∀ x ∈ xs, x ≠ a → f x = []) : xs.flatMap f = if a ∈ xs then f a else [] := by
  induction xs with
  | nil => simp
  | cons x xs ih =>
    obtain ⟨new, nodup⟩ := List.nodup_cons.mp nodup
    rw [List.flatMap_cons, ih nodup fun y member => others y (by simp [member])]
    by_cases eq : x = a
    · subst eq
      simp [new]
    · have member : a ∈ x :: xs ↔ a ∈ xs := by simp [Ne.symm eq]
      simp [others x (by simp) eq, member]

/-- If nothing may be left over, the one run that counts has all items. -/
theorem flatMap_runs_whole {xs : List α} {least : Nat} {most : Option Nat} {shortestFirst : Bool}
    {f : Split α → List β} (vanishes : ∀ split, split.after ≠ [] → f split = []) :
    (runs xs least most false shortestFirst).values.flatMap f =
      if (Width.mk least most).admits xs.length then f ⟨[], xs, []⟩ else [] := by
  have values : (runs xs least most false shortestFirst).values =
      (sizes xs.length least most shortestFirst).map fun size =>
        ⟨[], xs.take size, xs.drop size⟩ := by
    simp [runs]
  have others (size : Nat) (member : size ∈ sizes xs.length least most shortestFirst)
      (ne : size ≠ xs.length) : f ⟨[], xs.take size, xs.drop size⟩ = [] := by
    refine vanishes _ fun eq => ne ?_
    have within := (le_largest.mp (mem_sizes.mp member).2).1
    exact Nat.le_antisymm within (List.drop_eq_nil_iff.mp eq)
  have admits : xs.length ∈ sizes xs.length least most shortestFirst ↔
      (Width.mk least most).admits xs.length = true := by
    rw [mem_sizes, le_largest, Width.admits_iff]
    simp
  rw [values, List.flatMap_map, flatMap_eq_of_nodup (sizes_nodup ..) others, List.take_length,
    List.drop_length]
  simp only [admits]

end Search

namespace Pattern

variable {ev : Evaluator} {p : Pattern} {f : String}

/-- Whatever a match needs is given in the pattern: it has no options of a call, and what may be left
out has a default value of its own. -/
inductive SelfContained : Pattern → Prop
  | wildcard (span : Span) (head : Option Term) : SelfContained (.wildcard span head)
  | named {inner : Pattern} (name : String) : SelfContained inner → SelfContained (.named name inner)
  | optional {inner : Pattern} (value : Term) :
    SelfContained inner → SelfContained (.optional inner (some value))
  | alternatives {choices : List Pattern} :
    (∀ p ∈ choices, SelfContained p) → SelfContained (.alternatives choices)
  | except {excluded fallback : Pattern} :
    SelfContained excluded → SelfContained fallback → SelfContained (.except excluded fallback)
  | verbatim (t : Term) : SelfContained (.verbatim t)
  | hold {inner : Pattern} : SelfContained inner → SelfContained (.hold inner)
  | test {inner : Pattern} (predicate : Term) :
    SelfContained inner → SelfContained (.test inner predicate)
  | condition {inner : Pattern} (guard : Term) :
    SelfContained inner → SelfContained (.condition inner guard)
  | repeated {inner : Pattern} (least : Nat) (most : Option Nat) :
    SelfContained inner → SelfContained (.repeated inner least most)
  | compound {head : Pattern} {elements : List Pattern} :
    SelfContained head → (∀ p ∈ elements, SelfContained p) → SelfContained (.compound head elements)
  | literal (t : Term) : SelfContained (.literal t)

theorem SelfContained.explicit (h : p.SelfContained) : p.Explicit := by
  induction h with
  | wildcard span head => exact .wildcard span head
  | named name _ ih => exact .named name ih
  | optional value _ ih => exact .optional (some value) ih
  | alternatives _ ih => exact .alternatives ih
  | except _ _ excluded fallback => exact .except excluded fallback
  | verbatim t => exact .verbatim t
  | hold _ ih => exact .hold ih
  | test predicate _ ih => exact .test predicate ih
  | condition guard _ ih => exact .condition guard ih
  | repeated least most _ ih => exact .repeated least most ih
  | compound _ _ head ih => exact .compound head ih
  | literal t => exact .literal t

theorem SelfContained.isSome_of_optionalDefault? (h : p.SelfContained) :
    ∀ inline, p.optionalDefault? = some inline → inline.isSome := by
  induction h with
  | named name _ ih => exact ih
  | optional value _ _ =>
    rintro _ ⟨⟩
    rfl
  | _ => rintro _ ⟨⟩

theorem SelfContained.valueOf_place (h : p.SelfContained) (place place' : Option Place) (t : Term) :
    valueOf ev p place t = valueOf ev p place' t := by
  unfold valueOf
  cases optional : p.optionalDefault? with
  | none => rfl
  | some inline =>
    obtain ⟨value, rfl⟩ := Option.isSome_iff_exists.mp (h.isSome_of_optionalDefault? inline optional)
    rfl

theorem searchAny_congr {ps : List Pattern} {c c' : Context} {t : Term} {b : Bindings}
    (each : ∀ p ∈ ps, search ev p c t b = search ev p c' t b) :
    searchAny ev ps c t b = searchAny ev ps c' t b := by
  induction ps with
  | nil => rfl
  | cons p ps ih =>
    rw [searchAny, searchAny, each p (by simp), ih fun q member => each q (by simp [member])]

/-- Where a self-contained pattern stands does not matter. -/
theorem SelfContained.search_place (h : p.SelfContained) (place place' : Option Place) (whole : Bool)
    (t : Term) (b : Bindings) : search ev p ⟨place, whole⟩ t b = search ev p ⟨place', whole⟩ t b := by
  induction h generalizing t b whole with
  | wildcard span head => cases span <;> rfl
  | named name contained ih =>
    simp only [search, contained.valueOf_place place place', ih]
  | optional value _ _ => rfl
  | alternatives _ ih => exact searchAny_congr fun p member => ih p member whole t b
  | except _ _ excluded fallback => simp only [search, excluded, fallback]
  | hold _ ih | test _ _ ih | condition _ _ ih => simp only [search, ih]
  | verbatim _ | repeated _ _ _ _ | compound _ _ _ _ | literal _ => rfl

/-- A pattern that matches a sequence passes over as few of its items as it may. -/
theorem least_le_of_mem_search {c : Context} {ts : List Term} {b : Bindings} {m : Match}
    (several : ts.length ≠ 1) (admits : p.width.admits ts.length = true)
    (found : m ∈ (search ev p c (.sequence ts) b).values) :
    p.width.least ≤ (ts.filter p.mayMatch).length := by
  have notSingle (single : p.width = .single) : False := by
    rw [single] at admits
    obtain ⟨least, most⟩ := Width.admits_iff.mp admits
    exact several (Nat.le_antisymm (of_decide_eq_true most) least)
  have ofAll (all : ∀ t ∈ ts, p.mayMatch t = true) :
      p.width.least ≤ (ts.filter p.mayMatch).length := by
    rw [List.filter_eq_self.mpr all]
    exact (Width.admits_iff.mp admits).1
  induction p using Pattern.induct generalizing c b m with
  | wildcard span head =>
    cases span with
    | one => exact (notSingle rfl).elim
    | any => exact Nat.zero_le _
    | many =>
      refine ofAll fun t member => ?_
      simp only [search, Search.values_ite, Term.items_sequence, Bool.and_eq_true, List.all_eq_true] at found
      split at found
      · next all =>
        cases head with
        | none => rfl
        | some h => exact all.2 t member
      · simp at found
  | named name inner ih =>
    simp only [search, Search.values_bind, List.mem_flatMap] at found
    obtain ⟨value, -, found⟩ := found
    split at found
    · rw [Search.values_ite] at found
      split at found
      · exact ih admits found notSingle ofAll
      · simp at found
    · exact ih admits found notSingle ofAll
  | hold inner ih => exact ih admits found notSingle ofAll
  | test inner predicate ih | condition inner guard ih =>
    rw [search, Search.values_filter] at found
    exact ih admits (List.mem_of_mem_filter found) notSingle ofAll
  | optional inner inline _ | options cell defaults => exact Nat.zero_le _
  | alternatives choices _ | repeated inner least most _ => exact ofAll fun _ _ => rfl
  | except _ _ _ _ | verbatim _ | compound _ _ _ _ | literal _ => exact (notSingle rfl).elim

section

variable (e : Element Matcher) (h : Term) (args : List Term) (b : Bindings)

/-- The matches of the only element with what it has chosen, if that leaves nothing over. -/
def matchesOfSplit (split : Split Term) : List Bindings :=
  let s : Siblings := ⟨h, args, {}, 1, true⟩
  (s.presentations e.pattern split.chosen).values.flatMap fun t =>
    (e.matcher ⟨some ⟨h, e.position, 1⟩, true⟩ t b).values.flatMap fun m =>
      (s.distribute false [] split.after m.bindings).values.map (·.bindings)

theorem matchesOfSplit_leftover {split : Split Term} (left : split.after ≠ []) :
    matchesOfSplit e h args b split = [] := by
  have nothing (m : Match) :
      (Siblings.distribute ⟨h, args, {}, 1, true⟩ false [] split.after m.bindings).values = [] := by
    simp [Siblings.distribute, left]
  simp [matchesOfSplit, nothing]

theorem matchesOfSplit_whole (admits : e.pattern.width.admits args.length = true) :
    matchesOfSplit e h args b ⟨[], args, []⟩ =
      (e.matcher ⟨some ⟨h, e.position, 1⟩, true⟩ (.ofRun args) b).values.map (·.bindings) := by
  have presented :
      (Siblings.presentations ⟨h, args, {}, 1, true⟩ e.pattern args).values = [.ofRun args] := by
    by_cases alone : args.length = 1
    · obtain ⟨t, rfl⟩ := List.length_eq_one_iff.mp alone
      rfl
    · rw [Siblings.presentations_of_length_ne_one _ _ alone, Term.ofRun_of_length_ne_one alone,
        if_pos (Width.admits_iff.mp admits).2]
      rfl
  have everything (m : Match) :
      (Siblings.distribute ⟨h, args, {}, 1, true⟩ false [] [] m.bindings).values = [⟨m.bindings, {}⟩] := rfl
  simp [matchesOfSplit, presented, everything, List.map_eq_flatMap]

/-- The only element of a pattern has to take all arguments. -/
theorem values_matchAll_single :
    (Siblings.matchAll ⟨h, args, {}, 1, true⟩ [e] b).values.map (·.bindings) =
      if e.pattern.width.admits args.length ∧
          e.pattern.width.least ≤ (args.filter e.pattern.mayMatch).length then
        (e.matcher ⟨some ⟨h, e.position, 1⟩, true⟩ (.ofRun args) b).values.map (·.bindings)
      else [] := by
  let s : Siblings := ⟨h, args, {}, 1, true⟩
  have splits : (s.splits e.pattern true true args b).values =
      if (args.filter e.pattern.mayMatch).length < e.pattern.width.least then []
      else (Search.runs args e.pattern.width.least e.pattern.width.most false false).values := by
    rw [Siblings.splits, Search.values_ite]
    rfl
  have steps : (Siblings.matchAll s [e] b).values.map (·.bindings) =
      (s.splits e.pattern true true args b).values.flatMap (matchesOfSplit e h args b) := by
    change (s.distribute true [e] args b).values.map (·.bindings) = _
    exact Siblings.values_distribute_cons
  rw [steps, splits]
  by_cases few : (args.filter e.pattern.mayMatch).length < e.pattern.width.least
  · rw [if_pos few, if_neg fun both => Nat.not_lt.mpr both.2 few]
    rfl
  rw [if_neg few, Search.flatMap_runs_whole fun split => matchesOfSplit_leftover e h args b]
  by_cases admits : e.pattern.width.admits args.length = true
  · rw [if_pos admits, if_pos ⟨admits, Nat.not_lt.mp few⟩, matchesOfSplit_whole e h args b admits]
  · rw [if_neg admits, if_neg fun both => admits both.1]

end

/-- What the arguments match as the only element of a pattern whose head has no attributes. -/
theorem allMatches_only (contained : p.SelfContained) (attributes : ev.attributes f = {})
    (ts : List Term) (j j' : Journal) :
    ((compound (.literal (.symbol f)) [p]).allMatches ev (.call f ts) j).1 =
      if p.width.admits ts.length ∧ p.width.least ≤ (ts.filter p.mayMatch).length then
        (p.allMatches ev (.ofRun ts) j').1
      else [] := by
  have explicit : (compound (.literal (.symbol f)) [p]).Explicit :=
    .compound (.literal _) (by simpa using contained.explicit)
  have width : totalWidth [p] = p.width := by
    change p.width.add ⟨0, some 0⟩ = p.width
    obtain ⟨least, _ | most⟩ := p.width <;> simp [Width.add]
  have found : (search ev (compound (.literal (.symbol f)) [p]) {} (.call f ts) .empty).values =
      if p.width.admits ts.length then
        (Siblings.matchAll ⟨.symbol f, ts, {}, 1, true⟩ [⟨p, 1, search ev p⟩] .empty).values
      else [] := by
    simp [search_call, attributes, width, elementsFrom, Search.values_ite]
  rw [allMatches_eq, explicit.answers_solutions, allMatches_eq, contained.explicit.answers_solutions,
    found]
  by_cases admits : p.width.admits ts.length = true
  · rw [if_pos admits, values_matchAll_single]
    simp only [admits, true_and]
    rw [contained.search_place _ none]
  · rw [if_neg admits, if_neg fun both => admits both.1]
    rfl

/-- Unless it consists of one item, a run that the pattern has room for has the matches that it has as
the arguments of an application whose head has no attributes and whose only element is the pattern.
An item alone is matched by itself there, and a run without room does not match. -/
theorem sequenceOutcome_asArguments (contained : p.SelfContained) (attributes : ev.attributes f = {})
    (ts : List Term) (j j' : Journal) :
    let asArguments := ((compound (.literal (.symbol f)) [p]).allMatches ev (.call f ts) j').1
    (ts.length ≠ 1 → p.width.admits ts.length = true →
        (p.sequenceOutcome ev ts .all j).seen.toList = asArguments) ∧
      (∀ t, ts = [t] → p.width.admits 1 = true → (p.width.least = 0 ∨ p.mayMatch t = true) →
        (p.allMatches ev t j).1 = asArguments) ∧
      (p.width.admits ts.length = false → asArguments = []) := by
  have only := allMatches_only contained attributes ts j' j
  refine ⟨fun several admits => ?_, ?_, fun tooWide => ?_⟩
  · change (p.allMatches ev (.sequence ts) j).1 = _
    rw [only, Term.ofRun_of_length_ne_one several]
    by_cases enough : p.width.least ≤ (ts.filter p.mayMatch).length
    · rw [if_pos ⟨admits, enough⟩]
    · rw [if_neg fun both => enough both.2, allMatches_eq, contained.explicit.answers_solutions]
      have nothing (m : Match) : m ∉ (search ev p {} (.sequence ts) .empty).values :=
        fun found => enough (least_le_of_mem_search several admits found)
      rw [List.eq_nil_iff_forall_not_mem.mpr nothing]
      rfl
  · rintro t rfl admits passes
    have enough : p.width.least ≤ ([t].filter p.mayMatch).length := by
      rcases passes with none | passes
      · rw [none]
        exact Nat.zero_le _
      · have kept : [t].filter p.mayMatch = [t] := by simp [passes]
        rw [kept]
        exact (Width.admits_iff.mp admits).1
    rw [only, if_pos ⟨admits, enough⟩]
    rfl
  · rw [only, if_neg fun both => by simp [tooWide] at both]

/-- `x__` matches the run of `a` and `b` and binds it, like `f[x__]` the application `f[a, b]`. -/
theorem sequenceOutcome_asArguments_two :
    ((named "x" (.wildcard .many none)).sequenceOutcome .bare [.symbol "a", .symbol "b"] .all {}).seen.toList =
        ((compound (.literal (.symbol "f")) [.named "x" (.wildcard .many none)]).allMatches .bare
          (.call "f" [.symbol "a", .symbol "b"]) {}).1 ∧
      ((compound (.literal (.symbol "f")) [.named "x" (.wildcard .many none)]).isMatch .bare
        (.call "f" [.symbol "a", .symbol "b"]) {}).1 = true :=
  ⟨(sequenceOutcome_asArguments (.named "x" (.wildcard .many none)) rfl _ {} {}).1 (by decide) (by decide),
    by decide⟩

/-- A wildcard matches `a` as the argument of `f[a]`, and the run of `a` alone does not match it. -/
theorem sequenceOutcome_lone :
    ((wildcard .one none).sequenceOutcome .bare [.symbol "a"] .all {}).seen.toList.isEmpty = true ∧
      ((compound (.literal (.symbol "f")) [.wildcard .one none]).isMatch .bare
        (.call "f" [.symbol "a"]) {}).1 = true := by
  decide

end Pattern

end TermRewriting
