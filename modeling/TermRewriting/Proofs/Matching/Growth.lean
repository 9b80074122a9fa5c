import TermRewriting.Proofs.Matching.Kept
import TermRewriting.Proofs.Matching.Relocation
import TermRewriting.Proofs.Matching.Ways

/-! What a match adds to the bindings. All that it adds was bound on the way that it has gone through its
pattern: variables that had not been bound, each once, and options that its patterns for options come to. -/

namespace TermRewriting

open Bindings (optionOf? optionMark)

namespace Bindings

theorem eq_append_of_optionOf? {key name : String} (marked : optionOf? key = some name) :
    key = optionMark ++ name := by
  unfold optionOf? at marked
  split at marked
  · next isMarked =>
    obtain ⟨rest, split⟩ := List.isPrefixOf_iff_prefix.mp isMarked
    have dropped : key.toList.drop optionMark.length = rest := by
      simp [← split, ← String.length_toList]
    rw [dropped] at marked
    obtain rfl := Option.some.inj marked
    rw [← String.toList_inj, String.toList_append, String.toList_ofList, split]
  · cases marked

def plainNames (entries : List (String × Term)) : List String :=
  (entries.filter fun e => (optionOf? e.1).isNone).map (·.1)

/-- The later bindings are the earlier ones behind new entries: for variables of that list which were not
bound before, each once, and for options that are given. -/
structure Adds (names : List String) (given : String → Term → Prop) (b b' : Bindings)
    (new : List (String × Term)) : Prop where
  entries : b'.entries = new ++ b.entries
  size : b'.size = b.size + new.length
  once : (plainNames new).Nodup
  named : ∀ x ∈ plainNames new, x ∈ names ∧ b.get? x = none
  given : ∀ e ∈ new, ∀ name, optionOf? e.1 = some name → given name e.2

variable {names : List String} {given given' : String → Term → Prop} {b m b' : Bindings}
  {new newer : List (String × Term)}

theorem mem_plainNames {x : String} : x ∈ plainNames new ↔ optionOf? x = none ∧ ∃ v, (x, v) ∈ new := by
  simp only [plainNames, List.mem_map, List.mem_filter, Option.isNone_iff_eq_none, Prod.exists]
  constructor
  · rintro ⟨_, v, ⟨member, unmarked⟩, rfl⟩
    exact ⟨unmarked, v, member⟩
  · rintro ⟨unmarked, v, member⟩
    exact ⟨x, v, ⟨member, unmarked⟩, rfl⟩

theorem get?_eq_none_iff {x : String} : b.get? x = none ↔ ∀ v, (x, v) ∉ b.entries := by
  simp only [get?, List.lookup_eq_none_iff, Prod.forall]
  constructor
  · intro other v member
    simpa using other x v member
  · intro none y v member
    refine bne_iff_ne.mpr ?_
    rintro rfl
    exact none v member

theorem Adds.imp (h : Adds names given b b' new) (imp : ∀ name v, given name v → given' name v) :
    Adds names given' b b' new :=
  { h with given := fun e member name marked => imp name e.2 (h.given e member name marked) }

theorem Adds.refl (names : List String) (given : String → Term → Prop) (b : Bindings) : Adds names given b b [] where
  entries := rfl
  size := rfl
  once := .nil
  named := by simp [plainNames]
  given := by simp

theorem Adds.trans (first : Adds names given b m new) (later : Adds names given m b' newer) :
    Adds names given b b' (newer ++ new) where
  entries := by rw [later.entries, first.entries, List.append_assoc]
  size := by rw [later.size, first.size, List.length_append]; omega
  once := by
    have apart : ∀ x ∈ plainNames newer, x ∉ plainNames new := by
      intro x inNewer inNew
      obtain ⟨-, v, member⟩ := mem_plainNames.mp inNew
      refine get?_eq_none_iff.mp (later.named x inNewer).2 v ?_
      rw [first.entries]
      exact List.mem_append_left _ member
    rw [plainNames, List.filter_append, List.map_append]
    exact List.nodup_append.mpr ⟨later.once, first.once, fun x inNewer y inNew same => apart x inNewer (same ▸ inNew)⟩
  named := by
    intro x member
    rw [plainNames, List.filter_append, List.map_append] at member
    rcases List.mem_append.mp member with inNewer | inNew
    · obtain ⟨known, free⟩ := later.named x inNewer
      refine ⟨known, get?_eq_none_iff.mpr fun v older => get?_eq_none_iff.mp free v ?_⟩
      rw [first.entries]
      exact List.mem_append_right _ older
    · exact first.named x inNew
  given e member := (List.mem_append.mp member).elim (later.given e) (first.given e)

theorem adds_bind {x : String} (known : x ∈ names) (free : b.get? x = none) {v : Term}
    (marks : ∀ name, optionOf? x = some name → given name v) : Adds names given b (b.bind x v) [(x, v)] where
  entries := rfl
  size := rfl
  once := List.Nodup.sublist (List.Sublist.map _ List.filter_sublist) (List.nodup_cons.mpr ⟨List.not_mem_nil, .nil⟩)
  named := by
    intro y member
    obtain ⟨-, u, same⟩ := mem_plainNames.mp member
    obtain ⟨rfl, -⟩ := Prod.mk.inj (List.mem_singleton.mp same)
    exact ⟨known, free⟩
  given := by
    rintro _ member name marked
    obtain rfl := List.mem_singleton.mp member
    exact marks name marked

theorem adds_bindOption {x : String} {v : Term} (passed : given x v) (names : List String) (b : Bindings) :
    Adds names given b (b.bindOption x v) [(optionMark ++ x, v)] where
  entries := rfl
  size := rfl
  once := by simp [plainNames, optionOf?_optionMark_append]
  named := by simp [plainNames, optionOf?_optionMark_append]
  given := by
    rintro _ member name marked
    obtain rfl := List.mem_singleton.mp member
    obtain rfl := Option.some.inj ((optionOf?_optionMark_append x).symm.trans marked)
    exact passed

theorem adds_bindOptions {options : Options} (passed : ∀ e ∈ options, given e.1 e.2) (names : List String)
    (b : Bindings) : ∃ new, Adds names given b (b.bindOptions options) new := by
  induction options generalizing b with
  | nil => exact ⟨[], .refl ..⟩
  | cons entry options ih =>
    obtain ⟨new, later⟩ := ih (fun e member => passed e (by simp [member])) (b.bindOption entry.1 entry.2)
    exact ⟨_, (adds_bindOption (passed entry (by simp)) names b).trans later⟩

theorem Adds.get?_of_some (h : Adds names given b b' new) {x : String} {v : Term} (unmarked : optionOf? x = none)
    (bound : b.get? x = some v) : b'.get? x = some v := by
  have other : new.lookup x = none := by
    refine get?_eq_none_iff (b := ⟨new, new.length⟩).mpr fun u member => ?_
    simpa [bound] using (h.named x (mem_plainNames.mpr ⟨unmarked, u, member⟩)).2
  rw [get?, h.entries, List.lookup_append, other, Option.none_or]
  exact bound

end Bindings

namespace Pattern

variable {ev : Evaluator} {p q : Pattern} {t u : Term} {c : Context} {j : Journal} {b b' : Bindings}

def Within (p q : Pattern) : Prop := p.binds ⊆ q.binds ∧ p.optionPatterns ⊆ q.optionPatterns

theorem Within.refl (p : Pattern) : p.Within p := ⟨List.Subset.refl _, List.Subset.refl _⟩

theorem within_head (head : Pattern) (elements : List Pattern) : head.Within (.compound head elements) :=
  ⟨List.subset_append_left .., List.subset_append_left ..⟩

theorem within_element {p : Pattern} {elements : List Pattern} (member : p ∈ elements) (head : Pattern) :
    p.Within (.compound head elements) :=
  ⟨fun _ bound => List.mem_append_right _ (mem_bindsOfAll.mpr ⟨p, member, bound⟩),
    fun _ inside => List.mem_append_right _ (mem_optionPatternsOfAll.mpr ⟨p, member, inside⟩)⟩

theorem within_choice {p : Pattern} {choices : List Pattern} (member : p ∈ choices) :
    p.Within (.alternatives choices) :=
  ⟨fun _ bound => mem_bindsOfAll.mpr ⟨p, member, bound⟩,
    fun _ inside => mem_optionPatternsOfAll.mpr ⟨p, member, inside⟩⟩

theorem within_fallback (excluded fallback : Pattern) : fallback.Within (.except excluded fallback) :=
  ⟨List.Subset.refl _, List.subset_append_right ..⟩

theorem within_named (x : String) (inner : Pattern) : inner.Within (.named x inner) :=
  ⟨List.subset_cons_self .., List.Subset.refl _⟩

theorem Within.trans {r : Pattern} (inner : p.Within q) (outer : q.Within r) : p.Within r :=
  ⟨List.Subset.trans inner.1 outer.1, List.Subset.trans inner.2 outer.2⟩

/-- What is tried in earnest is part of the pattern. -/
theorem Attempts.within {probation : Bool} (attempted : Attempts ev p t probation q c u)
    (earnest : probation = false) : q.Within p := by
  induction attempted with
  | whole => exact .refl p
  | named _ ih => exact (within_named ..).trans (ih earnest)
  | optional _ _ ih | hold _ ih | test _ ih | condition _ ih | repeated _ _ ih => exact ih earnest
  | choice _ member ih => exact (within_choice member).trans (ih earnest)
  | excluded => cases earnest
  | fallback _ ih => exact (within_fallback ..).trans (ih earnest)
  | head _ _ ih => exact (within_head ..).trans (ih earnest)
  | element _ _ _ member _ _ ih | alone _ _ _ _ member ih =>
    exact (within_element (pattern_mem_of_mem_places member) _).trans (ih earnest)

/-- A pattern for options that stands in the pattern gives the option that value: it comes to it where it
is tried on something, and not only to see whether that is excluded. -/
def BindsOption (ev : Evaluator) (p : Pattern) (t : Term) (j : Journal) (name : String) (value : Term) : Prop :=
  ∃ source ∈ p.optionPatterns, ∃ c u options, Attempts ev p t false (.options source.1 source.2) c u ∧
    ComesTo ev (Inherited ev p t j) source.1 source.2 u options ∧ (name, value) ∈ options

/-- All parts of the task are tried in earnest while the pattern is matched with the term. -/
def Task.Attempted (ev : Evaluator) (p : Pattern) (t : Term) : Task → Prop
  | .part q c u => Attempts ev p t false q c u
  | .each parts => ∀ part ∈ parts, Attempts ev p t false part.1 part.2.1 part.2.2
  | .elements s _ es items => ∀ e ∈ es, ∀ chosen v, IsShare s.attributes.orderless chosen items →
    v ∈ (s.presentations e.pattern chosen).values → Attempts ev p t false e.pattern (under s.head s.count e) v

/-- A key that carries the mark may belong to a variable of the pattern as well. -/
def Marks (ev : Evaluator) (p : Pattern) (t : Term) (j : Journal) (name : String) (value : Term) : Prop :=
  optionMark ++ name ∈ p.binds ∨ p.BindsOption ev t j name value

/-- All that a way adds was bound by parts that are tried in earnest. The induction is on the way. -/
theorem Way.adds {task : Task} (way : Way ev (Inherited ev p t j) task b b') (attempted : task.Attempted ev p t) :
    ∃ new, Bindings.Adds p.binds (p.Marks ev t j) b b' new := by
  induction way with
  | wildcard | verbatim | literal | finished | noElement => exact ⟨[], .refl ..⟩
  | bound _ _ _ _ ih => exact ih (Attempts.named attempted)
  | @free x inner _ _ v _ _ free _ _ ih =>
    obtain ⟨new, adds⟩ := ih (Attempts.named attempted)
    have known : x ∈ p.binds := (attempted.within rfl).1 List.mem_cons_self
    have marks (name : String) (marked : optionOf? x = some name) : p.Marks ev t j name v :=
      .inl (Bindings.eq_append_of_optionOf? marked ▸ known)
    exact ⟨_, (Bindings.adds_bind known free marks).trans adds⟩
  | optional isValue _ ih => exact ih (Attempts.optional attempted isValue)
  | alternatives member _ ih => exact ih (Attempts.choice attempted member)
  | except _ ih => exact ih (Attempts.fallback attempted)
  | hold _ ih => exact ih (Attempts.hold attempted)
  | test _ _ ih => exact ih (Attempts.test attempted)
  | condition _ _ ih => exact ih (Attempts.condition attempted)
  | repeated _ _ ih =>
    refine ih fun part member => ?_
    obtain ⟨item, inItems, rfl⟩ := List.mem_map.mp member
    exact Attempts.repeated attempted inItems
  | @options cell explicit options c u b comes =>
    have inside : (cell, explicit) ∈ p.optionPatterns := (attempted.within rfl).2 List.mem_cons_self
    exact Bindings.adds_bindOptions
      (fun e member => .inr ⟨_, inside, c, u, options, attempted, comes, member⟩) p.binds b
  | compound accepts headWay _ head_ih ih =>
    obtain ⟨first, adds⟩ := head_ih (Attempts.head attempted accepts)
    obtain ⟨later, addsLater⟩ := ih fun e member chosen v among presented => by
      refine Attempts.element attempted accepts ?_ (Element.mem_inOrder member) among presented
      rintro v rfl
      exact headWay.same_literal
    exact ⟨_, adds.trans addsLater⟩
  | alone identity literal stands _ ih =>
    refine ih fun part member => ?_
    obtain ⟨e, inPlaces, rfl⟩ := List.mem_map.mp member
    exact Attempts.alone attempted identity literal stands inPlaces
  | next _ _ first_ih later_ih =>
    obtain ⟨first, adds⟩ := first_ih (attempted _ List.mem_cons_self)
    obtain ⟨later, addsLater⟩ := later_ih fun part member => attempted part (List.mem_cons_of_mem _ member)
    exact ⟨_, adds.trans addsLater⟩
  | @element s first e later items split v _ _ _ chosen presented _ _ first_ih later_ih =>
    obtain ⟨inChosen, inAfter⟩ := Siblings.isShare_of_mem_splits chosen
    obtain ⟨first, adds⟩ := first_ih (attempted e List.mem_cons_self _ v inChosen presented)
    obtain ⟨later, addsLater⟩ := later_ih fun e member chosen v among =>
      attempted e (List.mem_cons_of_mem _ member) chosen v (among.trans inAfter)
    exact ⟨_, adds.trans addsLater⟩

/-- A match only ever adds to the bindings: in front of those made before it has variables of the pattern
that have not been bound, each once, and options that its patterns for options come to. So whatever was
bound stays as it is. It has gone one way through the pattern, and all that it adds was made on that way. -/
theorem matchOutcome_adds {p : Pattern} (unmarked : ∀ x ∈ p.names, optionOf? x = none) (ev : Evaluator)
    (t : Term) (b : Bindings) (strategy : Strategy Bindings) (j : Journal) :
    ∀ nb ∈ (p.matchOutcome ev t b strategy j).seen, ∃ new,
      Bindings.Adds p.binds (p.BindsOption ev t j) b nb new ∧
      (∀ x v, optionOf? x = none → b.get? x = some v → nb.get? x = some v) ∧
      nb.size = b.size + new.length ∧ Way ev (Inherited ev p t j) (.part p {} t) b nb := by
  intro nb reported
  have way := way_of_mem_seen reported
  obtain ⟨new, marks⟩ := way.adds .whole
  have adds : Bindings.Adds p.binds (p.BindsOption ev t j) b nb new := marks.imp fun name v given => by
    refine given.resolve_left fun bound => ?_
    cases (unmarked _ (binds_subset_names p bound)).symm.trans (Bindings.optionOf?_optionMark_append name)
  exact ⟨new, adds, fun x v plain bound => adds.get?_of_some plain bound, adds.size, way⟩

/-- Matched with `f[1, 2]`, where `x` is already `1`, `f[x_, y_]` adds `y` and nothing else. -/
theorem matchOutcome_adds_one :
    let p := compound (.literal (.symbol "f")) [.named "x" (.wildcard .one none), .named "y" (.wildcard .one none)]
    let t := Term.call "f" [.integer 1, .integer 2]
    let b := Bindings.empty.bind "x" (.integer 1)
    let nb := b.bind "y" (.integer 2)
    nb ∈ (p.matchOutcome .bare t b .all {}).seen ∧
      ∃ new, Bindings.Adds p.binds (p.BindsOption .bare t {}) b nb new ∧
        (∀ x v, optionOf? x = none → b.get? x = some v → nb.get? x = some v) ∧
        nb.size = b.size + new.length ∧ Way .bare (Inherited .bare p t {}) (.part p {} t) b nb := by
  intro p t b nb
  have unmarked : ∀ x ∈ p.names, optionOf? x = none := by decide
  have reported : nb ∈ (p.matchOutcome .bare t b .all {}).seen := List.mem_toArray.mpr (List.mem_singleton_self nb)
  exact ⟨reported, matchOutcome_adds unmarked .bare t b .all {} nb reported⟩

end Pattern

end TermRewriting
