import TermRewriting.Proofs.Matching.Parallel

/-! Wrapped elements. A pattern whose value is held, or bound to a variable of its own, matches what it
matches alone. Where it stands among the elements of a compound pattern, the application must not see it in
another way either: then the whole runs in parallel, whatever is around it. -/

namespace TermRewriting

open Bindings (optionOf?)

inductive Wrapper where
  | hold
  | named (name : String)

namespace Wrapper

def onPattern : Wrapper → Pattern → Pattern
  | .hold, p => .hold p
  | .named x, p => .named x p

def names : Wrapper → List String
  | .hold => []
  | .named x => [x]

/-- Under a head with these attributes, the element is seen in the same way with the wrapper: as required,
as a wildcard or not where the head is flat, and in its rank where order does not count. -/
structure Suits (w : Wrapper) (attributes : Attributes) (q : Pattern) : Prop where
  required : q.isOptional = false
  flat : attributes.flat = true → (w.onPattern q).isWildcard = q.isWildcard
  orderless : attributes.orderless = true → (w.onPattern q).rank = q.rank

/-- The variable that the element itself is, where order does not count: if it is bound before, the element
is not tried with anything else. -/
def decisive (attributes : Attributes) (q : Pattern) : List String :=
  if attributes.orderless then q.name?.toList else []

end Wrapper

/-- The second pattern is the first one with a wrapper around an element of a compound pattern in it. The
element is required and is seen in the same way with the wrapper, and `ys` are its decisive variables. What
is repeated can only be wrapped in what binds no variable, and has no decisive variables. -/
inductive Pattern.Wraps (ev : Evaluator) (w : Wrapper) : List String → Pattern → Pattern → Prop
  | element {head q : Pattern} {before after : List Pattern} : w.Suits (head.attributes ev) q →
    Wraps ev w (Wrapper.decisive (head.attributes ev) q) (.compound head (before ++ q :: after))
      (.compound head (before ++ w.onPattern q :: after))
  | head {ys : List String} {head head' : Pattern} {elements : List Pattern} : Wraps ev w ys head head' →
    Wraps ev w ys (.compound head elements) (.compound head' elements)
  | part {ys : List String} {head p p' : Pattern} {before after : List Pattern} : Wraps ev w ys p p' →
    Wraps ev w ys (.compound head (before ++ p :: after)) (.compound head (before ++ p' :: after))
  | named {ys : List String} {p p' : Pattern} (x : String) : Wraps ev w ys p p' →
    Wraps ev w ys (.named x p) (.named x p')
  | optional {ys : List String} {p p' : Pattern} (default : Option Term) : Wraps ev w ys p p' →
    Wraps ev w ys (.optional p default) (.optional p' default)
  | choice {ys : List String} {p p' : Pattern} {before after : List Pattern} : Wraps ev w ys p p' →
    Wraps ev w ys (.alternatives (before ++ p :: after)) (.alternatives (before ++ p' :: after))
  | excluded {ys : List String} {p p' : Pattern} (fallback : Pattern) : Wraps ev w ys p p' →
    Wraps ev w ys (.except p fallback) (.except p' fallback)
  | fallback {ys : List String} {p p' : Pattern} (excluded : Pattern) : Wraps ev w ys p p' →
    Wraps ev w ys (.except excluded p) (.except excluded p')
  | hold {ys : List String} {p p' : Pattern} : Wraps ev w ys p p' → Wraps ev w ys (.hold p) (.hold p')
  | test {ys : List String} {p p' : Pattern} (predicate : Term) : Wraps ev w ys p p' →
    Wraps ev w ys (.test p predicate) (.test p' predicate)
  | repeated {p p' : Pattern} (least : Nat) (most : Option Nat) : w.names = [] → Wraps ev w [] p p' →
    Wraps ev w [] (.repeated p least most) (.repeated p' least most)

theorem Wrapper.mem_names_of_decisive {attributes : Attributes} {q : Pattern} {y : String}
    (own : y ∈ decisive attributes q) : y ∈ q.names := by
  rw [decisive] at own
  split at own
  · exact Pattern.mem_names_of_name? (Option.mem_toList.mp own)
  · cases own

namespace Bindings

def AgreeBut (xs : List String) (b b' : Bindings) : Prop := ∀ y, y ∉ xs → b.get? y = b'.get? y

/-- Bindings before the wrapped element is matched: its own variables and that of the wrapper are not bound. -/
def Awaits (w : Wrapper) (ys : List String) (b b' : Bindings) : Prop :=
  AgreeBut w.names b b' ∧ ∀ z ∈ w.names ++ ys, b'.get? z = none

variable {xs : List String} {b b' : Bindings}

theorem AgreeBut.bind (h : AgreeBut xs b b') (x : String) (v : Term) : AgreeBut xs (b.bind x v) (b'.bind x v) := by
  intro y other
  rw [get?_bind, get?_bind, h y other]

theorem congruence_agreeBut {names : List String} (apart : ∀ x ∈ xs, x ∉ names) :
    Congruence names [] (AgreeBut xs) where
  get? y member _ _ related := related y fun inNames => apart y inNames member
  bind x _ _ _ v related := related.bind x v
  bindOption _ _ _ v related := related.bind _ v
  substitute := by simp

theorem steps_apart {names zs : List String} (apart : ∀ z ∈ zs, z ∉ names)
    (unmarked : ∀ z ∈ zs, optionOf? z = none) : Steps names fun b m => ∀ z ∈ zs, m.get? z = b.get? z where
  refl _ _ _ := rfl
  trans b c d now later z member := (Steps.get? (apart z member) (unmarked z member)).trans b c d
    (now z member) (later z member)
  bind b x known v free z member := (Steps.get? (apart z member) (unmarked z member)).bind b x known v free
  bindOption b x v z member := (Steps.get? (apart z member) (unmarked z member)).bindOption b x v

end Bindings

namespace Wrapper

variable {w : Wrapper} {q : Pattern} {ys : List String}

theorem width_onPattern (w : Wrapper) (q : Pattern) : (w.onPattern q).width = q.width := by cases w <;> rfl

theorem mayMatch_onPattern (w : Wrapper) (q : Pattern) (t : Term) : (w.onPattern q).mayMatch t = q.mayMatch t := by
  cases w <;> rfl

theorem optionalDefault?_onPattern (w : Wrapper) (required : q.isOptional = false) :
    (w.onPattern q).optionalDefault? = none := by
  have none : q.optionalDefault? = none := by simpa [Pattern.isOptional] using required
  cases w with
  | hold => rfl
  | named x => exact none

variable {s : Siblings}

/-- Only a held application of the flat head itself is flattened without its wrapper, and that has room for
one argument and for any. -/
theorem flattens_onPattern (suits : w.Suits s.attributes q) :
    s.flattens (w.onPattern q) = s.flattens q ∨
      s.attributes.flat = true ∧ q.isWildcard = false ∧ q.width = .single ∧ q.name? = none ∧
        ∀ t, q.mayMatch t = true := by
  rw [Siblings.flattens_eq, Siblings.flattens_eq]
  cases flat : s.attributes.flat with
  | false => exact .inl rfl
  | true =>
    rw [suits.flat flat]
    cases wildcard : q.isWildcard with
    | true => exact .inl rfl
    | false =>
      cases w with
      | named x => cases (show true = q.isWildcard from suits.flat flat).trans wildcard
      | hold =>
        cases q with
        | compound head elements => exact .inr ⟨rfl, rfl, rfl, rfl, fun _ => rfl⟩
        | _ => exact .inl rfl

theorem fits_onPattern (suits : w.Suits s.attributes q) : s.fits (w.onPattern q) = s.fits q := by
  funext t
  rw [Siblings.fits, Siblings.fits, mayMatch_onPattern]
  rcases flattens_onPattern suits with same | ⟨-, -, -, -, any⟩
  · rw [same]
  · simp [any]

theorem most_onPattern (suits : w.Suits s.attributes q) : s.most (w.onPattern q) = s.most q := by
  rw [Siblings.most, Siblings.most, width_onPattern]
  cases flat : s.attributes.flat with
  | false => rfl
  | true => rw [suits.flat flat]

open Bindings (AgreeBut Awaits)

variable {b b' : Bindings} {first last : Bool} {items : List Term}

theorem splits_onPattern (suits : w.Suits s.attributes q) (apart : ∀ x ∈ w.names, x ∉ q.names)
    (awaits : Awaits w (decisive s.attributes q) b b') :
    s.splits q first last items b = s.splits (w.onPattern q) first last items b' := by
  rw [Siblings.splits, Siblings.splits, fits_onPattern suits, most_onPattern suits, width_onPattern]
  cases orderless : s.attributes.orderless with
  | false => rfl
  | true =>
    have free : Siblings.boundTo? b q = none := by
      rw [Siblings.boundTo?_eq]
      cases name : q.name? with
      | none => rfl
      | some y =>
        have own : y ∈ decisive s.attributes q := by simp [decisive, orderless, name]
        have other : y ∉ w.names := fun member => apart y member (Pattern.mem_names_of_name? name)
        exact (awaits.1 y other).trans (awaits.2 y (List.mem_append_right _ own))
    have wrapped : Siblings.boundTo? b' (w.onPattern q) = none := by
      cases w with
      | hold => rfl
      | named x => exact awaits.2 x List.mem_cons_self
    simp only [free, wrapped]

theorem length_of_mem_splits (single : q.width = .single) (narrow : s.most q = some 1)
    (free : Siblings.boundTo? b q = none) {split : Split Term}
    (found : split ∈ (s.splits q first last items b).values) : split.chosen.length = 1 := by
  have size {n : Nat} (sized : n ∈ Search.sizes items.length 1 (some 1) (!last)) :
      n = 1 ∧ 1 ≤ items.length := by
    obtain ⟨least, most⟩ := Search.mem_sizes.mp sized
    simp only [Search.largest, Option.elim_some] at most
    omega
  rw [Siblings.splits, single, narrow, free, Search.values_ite] at found
  split at found
  · simp at found
  · rw [Search.values_ite] at found
    split at found
    · simp only [Search.runs, Search.values_bind, Search.values_map, Search.values_ofList, List.mem_flatMap,
        List.mem_map, Width.single, Search.largest, Option.elim_some] at found
      obtain ⟨start, started, n, sized, rfl⟩ := found
      obtain ⟨rfl, some⟩ := size sized
      have within : start < items.length := by
        rw [List.mem_range] at started
        split at started <;> omega
      simp only [List.length_take, List.length_drop]
      omega
    · obtain ⟨n, chosen, rest, sized, chose, rfl⟩ := Search.mem_subsets.mp found
      exact (Search.perm_of_mem_choose chose).2.1.trans (size sized).1

theorem presentations_onPattern (suits : w.Suits s.attributes q) {split : Split Term}
    (found : split ∈ (s.splits q first last items b).values) :
    s.presentations q split.chosen = s.presentations (w.onPattern q) split.chosen := by
  rcases flattens_onPattern suits with same | ⟨flat, wildcard, single, name, -⟩
  · unfold Siblings.presentations
    rw [width_onPattern, same]
  · have narrow : s.most q = some 1 := by simp [Siblings.most, wildcard, single, Width.single]
    have free : Siblings.boundTo? b q = none := by rw [Siblings.boundTo?_eq, name]; rfl
    obtain ⟨t, eq⟩ := List.length_eq_one_iff.mp (length_of_mem_splits single narrow free found)
    rw [eq]
    rfl

end Wrapper

namespace Pattern

open Bindings (AgreeBut Awaits)

variable {ev : Evaluator} {w : Wrapper} {ys xs : List String} {p p' q : Pattern} {attributes : Attributes}

theorem parallel_agreeBut (ev : Evaluator) (apart : ∀ x ∈ xs, x ∉ p.names) (unguarded : p.guards = []) :
    Matcher.Parallel Eq (AgreeBut xs) (AgreeBut xs) (search ev p) (search ev p) := by
  have runs : Matcher.Parallel Eq (AgreeBut xs) (AgreeBut xs) (search ev p) (search ev (p.relocate id)) :=
    parallel_relocate (fun _ _ => rfl) (unguarded ▸ Bindings.congruence_agreeBut apart)
  rwa [relocate_id] at runs

theorem parallel_awaits (apart : ∀ z ∈ w.names ++ ys, z ∉ p.names)
    (unmarked : ∀ z ∈ w.names ++ ys, optionOf? z = none) (unguarded : p.guards = []) :
    Matcher.Parallel Eq (Awaits w ys) (Awaits w ys) (search ev p) (search ev p) := by
  intro c t b b' ⟨agree, awaited⟩
  have runs := parallel_agreeBut ev (fun x member => apart x (List.mem_append_left ys member)) unguarded
    c t b b' agree
  have kept : (search ev p c t b').All fun m => ∀ z ∈ w.names ++ ys, m.bindings.get? z = b'.get? z :=
    keeps_search p (Bindings.steps_apart apart unmarked) c t b'
  exact (runs.and_all kept).imp fun m m' ⟨matched, kept⟩ =>
    ⟨⟨matched.1, fun z member => (kept z member).trans (awaited z member)⟩, matched.2⟩

/-- An element that has none of these variables, matched before the wrapped one or after it. -/
theorem parallel_other (ev : Evaluator) (apart : ∀ z ∈ w.names ++ ys, z ∉ q.names)
    (unmarked : ∀ z ∈ w.names ++ ys, optionOf? z = none) (unguarded : q.guards = []) (attributes : Attributes)
    (i : Nat) : Element.Parallel Eq attributes (Awaits w ys) (Awaits w ys) ⟨q, i, search ev q⟩ ⟨q, i, search ev q⟩ ∧
      Element.Parallel Eq attributes (AgreeBut w.names) (AgreeBut w.names) ⟨q, i, search ev q⟩
        ⟨q, i, search ev q⟩ := by
  have fresh (x : String) (new : x ∈ w.names) : x ∉ q.names := apart x (List.mem_append_left ys new)
  have known (x : String) (name : q.name? = some x) : x ∉ w.names := fun new =>
    fresh x new (mem_names_of_name? name)
  exact ⟨Element.parallel_of_outline rfl (fun x name b b' awaits => awaits.1 x (known x name))
      (parallel_awaits apart unmarked unguarded) attributes i,
    Element.parallel_of_outline rfl (fun x name b b' agree => agree x (known x name))
      (parallel_agreeBut ev fresh unguarded) attributes i⟩

theorem parallel_beside (fresh : ∀ x ∈ w.names, x ∉ q.names) (unguarded : q.guards = []) :
    Matcher.Parallel Eq (Awaits w ys) (AgreeBut w.names) (search ev q) (search ev q) :=
  (parallel_agreeBut ev fresh unguarded).imp (fun _ _ awaits => awaits.1) fun _ _ agree => agree

/-- The element has the same matches with its wrapper, and binds what the wrapper brings as well. -/
theorem parallel_onPattern (suits : w.Suits attributes q) (apart : ∀ x ∈ w.names, x ∉ q.names)
    (unguarded : q.guards = []) :
    Matcher.Parallel Eq (Awaits w ys) (AgreeBut w.names) (search ev q) (search ev (w.onPattern q)) := by
  intro c t b b' ⟨agree, awaited⟩
  have runs := parallel_agreeBut ev apart unguarded
  cases w with
  | hold => exact runs c t b b' agree
  | named x =>
    have value : valueOf ev q c.place t = .one t := by
      rw [valueOf, show q.optionalDefault? = none from Wrapper.optionalDefault?_onPattern (.named x) suits.required]
    have free : b'.get? x = none := awaited x List.mem_cons_self
    have bound : AgreeBut [x] b (b'.bind x t) := by
      intro y other
      rw [Bindings.get?_bind, if_neg (by simpa using other), agree y other]
    simp only [Wrapper.onPattern, search, value, Search.one_bind, free]
    exact runs c t b _ bound

theorem element_onPattern (suits : w.Suits attributes q) (apart : ∀ x ∈ w.names, x ∉ q.names)
    (unguarded : q.guards = []) (i : Nat) :
    Element.Parallel Eq attributes (Awaits w (Wrapper.decisive attributes q)) (AgreeBut w.names)
      ⟨q, i, search ev q⟩ ⟨w.onPattern q, i, search ev (w.onPattern q)⟩ where
  position := rfl
  width := (w.width_onPattern q).symm
  rank orderless := (suits.orderless orderless).symm
  optional := by
    have none : (w.onPattern q).isOptional = false := by
      rw [isOptional, w.optionalDefault?_onPattern suits.required]
      rfl
    exact suits.required.trans none.symm
  splits := by
    rintro s rfl first last items b b' awaits
    exact Wrapper.splits_onPattern suits apart awaits
  presentations := by
    rintro s rfl first last items b b' _ split found
    exact Wrapper.presentations_onPattern suits found
  matcher := parallel_onPattern suits apart unguarded

theorem widthOfAny_part {p p' : Pattern} (width : p.width = p'.width) (before after : List Pattern) :
    widthOfAny (before ++ p :: after) = widthOfAny (before ++ p' :: after) := by
  induction before with
  | nil => cases after <;> simp only [List.nil_append, widthOfAny, width]
  | cons q before ih =>
    cases before with
    | nil => simpa only [List.cons_append, List.nil_append, widthOfAny] using congrArg q.width.join ih
    | cons r before => simpa only [List.cons_append, widthOfAny] using congrArg q.width.join ih

theorem Wraps.literal?_eq (h : Wraps ev w ys p p') : p.literal? = p'.literal? := by cases h <;> rfl

/-- Around the pattern in which an element is wrapped, there is no difference to be seen. -/
theorem Wraps.outline_eq (h : Wraps ev w ys p p') : p.outline = p'.outline := by
  induction h with
  | element | part | excluded | fallback | optional | repeated => rfl
  | head inner => simp only [outline, literalHead?, inner.literal?_eq]; rfl
  | named x inner ih =>
    obtain ⟨width, -, -, default, -, -, mayMatch⟩ := Outline.mk.inj ih
    simp only [outline, Pattern.width, width, rank, isWildcard, optionalDefault?, default, literalHead?, name?,
      Pattern.mayMatch, mayMatch]
  | @choice _ p p' before after inner ih =>
    have width := widthOfAny_part (Outline.mk.inj ih).1 before after
    simp only [outline, Pattern.width, width, rank, isWildcard, optionalDefault?, literalHead?, name?,
      Pattern.mayMatch]
  | test predicate inner ih =>
    obtain ⟨width, -, -, -, -, -, mayMatch⟩ := Outline.mk.inj ih
    simp only [outline, Pattern.width, width, rank, isWildcard, optionalDefault?, literalHead?, name?,
      Pattern.mayMatch, mayMatch]
  | hold inner ih =>
    obtain ⟨width, -, -, -, -, -, mayMatch⟩ := Outline.mk.inj ih
    simp only [outline, Pattern.width, width, rank, isWildcard, optionalDefault?, literalHead?, name?,
      Pattern.mayMatch, mayMatch]
    rfl

theorem namesOfAll_eq_flatMap (ps : List Pattern) : namesOfAll ps = ps.flatMap names := by
  induction ps with
  | nil => rfl
  | cons p ps ih => rw [namesOfAll, ih, List.flatMap_cons]

theorem Wraps.mem_names (h : Wraps ev w ys p p') : ∀ y ∈ ys, y ∈ p.names := by
  have part {p head : Pattern} {before after : List Pattern} {y : String} (inPart : y ∈ p.names) :
      y ∈ (compound head (before ++ p :: after)).names :=
    List.mem_append_right _ (mem_namesOfAll.mpr ⟨p, by simp, inPart⟩)
  induction h with
  | element suits => exact fun y own => part (Wrapper.mem_names_of_decisive own)
  | head inner ih => exact fun y own => List.mem_append_left _ (ih y own)
  | part inner ih => exact fun y own => part (ih y own)
  | named x inner ih => exact fun y own => List.mem_cons_of_mem x (ih y own)
  | optional _ _ ih | hold _ ih | test _ _ ih | repeated _ _ _ _ ih => exact ih
  | @choice _ p _ _ _ inner ih => exact fun y own => mem_namesOfAll.mpr ⟨p, by simp, ih y own⟩
  | excluded _ _ ih => exact fun y own => List.mem_append_left _ (ih y own)
  | fallback _ _ ih => exact fun y own => List.mem_append_right _ (ih y own)

/-- The pattern has no conditions. It has no variable that the wrapper brings, and the decisive variables of
the wrapped element only there. -/
structure Clear (w : Wrapper) (ys : List String) (p : Pattern) : Prop where
  fresh : ∀ x ∈ w.names, x ∉ p.names
  alone : ∀ y ∈ ys, p.names.count y ≤ 1
  unguarded : p.guards = []

theorem Clear.of_sublist (clear : Clear w ys p) (names : q.names.Sublist p.names)
    (guards : q.guards ⊆ p.guards) : Clear w ys q where
  fresh x member inNames := clear.fresh x member (names.subset inNames)
  alone y own := Nat.le_trans (names.count_le y) (clear.alone y own)
  unguarded := List.eq_nil_of_subset_nil (clear.unguarded ▸ guards)

/-- What is beside a part in which the decisive variables are has none of them. -/
theorem Clear.apart (clear : Clear w ys p) (inPart : ∀ y ∈ ys, y ∈ q.names) {names : List String}
    (beside : ∀ y, names.count y + q.names.count y ≤ p.names.count y) : ∀ z ∈ w.names ++ ys, z ∉ names := by
  intro z member inNames
  have here : 0 < names.count z := List.count_pos_iff.mpr inNames
  have total := beside z
  rcases List.mem_append.mp member with new | own
  · have none : p.names.count z = 0 := List.count_eq_zero.mpr (clear.fresh z new)
    omega
  · have inside : 0 < q.names.count z := List.count_pos_iff.mpr (inPart z own)
    have once := clear.alone z own
    omega

theorem elementsFrom_append (ps qs : List Pattern) (position : Nat) :
    elementsFrom ev position (ps ++ qs) = elementsFrom ev position ps ++ elementsFrom ev (position + ps.length) qs := by
  induction ps generalizing position with
  | nil => rfl
  | cons p ps ih =>
    rw [List.cons_append, elementsFrom, elementsFrom, ih, List.length_cons, List.cons_append]
    congr 3
    omega

theorem map_position_elementsFrom (ps : List Pattern) (position : Nat) :
    (elementsFrom ev position ps).map (·.position) = List.range' position ps.length := by
  induction ps generalizing position with
  | nil => rfl
  | cons p ps ih => rw [elementsFrom, List.map_cons, ih, List.length_cons, List.range'_succ]

section

variable {head : Pattern} {before after : List Pattern} (clear : Clear w ys (.compound head (before ++ p :: after)))
  (inPart : ∀ y ∈ ys, y ∈ p.names)
include clear inPart

theorem Clear.apart_head : ∀ z ∈ w.names ++ ys, z ∉ head.names := by
  refine clear.apart inPart fun y => ?_
  simp only [names, namesOfAll_eq_flatMap, List.flatMap_append, List.flatMap_cons, List.count_append]
  omega

theorem Clear.apart_element {q : Pattern} (member : q ∈ before ∨ q ∈ after) : ∀ z ∈ w.names ++ ys, z ∉ q.names := by
  refine clear.apart inPart fun y => ?_
  have count {ps : List Pattern} (member : q ∈ ps) : q.names.count y ≤ (ps.flatMap names).count y := by
    obtain ⟨front, back, rfl⟩ := List.append_of_mem member
    simp only [List.flatMap_append, List.flatMap_cons, List.count_append]
    omega
  simp only [names, namesOfAll_eq_flatMap, List.flatMap_append, List.flatMap_cons, List.count_append]
  rcases member with member | member
  · have := count member
    omega
  · have := count member
    omega

end

theorem Clear.part {head : Pattern} {before after : List Pattern}
    (clear : Clear w ys (.compound head (before ++ p :: after))) : Clear w ys p := by
  refine clear.of_sublist ?_ fun guard inside => ?_
  · simp only [names, namesOfAll_eq_flatMap, List.flatMap_append, List.flatMap_cons]
    exact ((List.sublist_append_left ..).trans (List.sublist_append_right ..)).trans (List.sublist_append_right ..)
  · exact List.mem_append_right _ (mem_guardsOfAll.mpr ⟨p, by simp, inside⟩)

theorem allBut_elementsFrom {R Q : Bindings → Bindings → Prop} {before after : List Pattern}
    (others : ∀ q, q ∈ before ∨ q ∈ after → ∀ i,
      Element.Parallel Eq attributes R R ⟨q, i, search ev q⟩ ⟨q, i, search ev q⟩ ∧
        Element.Parallel Eq attributes Q Q ⟨q, i, search ev q⟩ ⟨q, i, search ev q⟩)
    (pair : ∀ i, Element.Parallel Eq attributes R Q ⟨p, i, search ev p⟩ ⟨p', i, search ev p'⟩) :
    Element.AllBut Eq attributes R Q (1 + before.length) (elementsFrom ev 1 (before ++ p :: after))
      (elementsFrom ev 1 (before ++ p' :: after)) := by
  rw [elementsFrom_append, elementsFrom_append, elementsFrom, elementsFrom]
  refine List.rel_append (List.forall₂_same.mpr ?_) (.cons (.inl ⟨rfl, pair _⟩) (List.forall₂_same.mpr ?_))
  · rintro ⟨q, i, matcher⟩ member
    obtain ⟨inBefore, (rfl : matcher = search ev q)⟩ := mem_elementsFrom member
    exact .inr (others q (.inl inBefore) i)
  · rintro ⟨q, i, matcher⟩ member
    obtain ⟨inAfter, (rfl : matcher = search ev q)⟩ := mem_elementsFrom member
    exact .inr (others q (.inr inAfter) i)

/-- Where one element runs in parallel to another one, so do the compound patterns. -/
theorem parallel_compound_part {head : Pattern} {before after : List Pattern}
    (clear : Clear w ys (.compound head (before ++ p :: after))) (inPart : ∀ y ∈ ys, y ∈ p.names)
    (unmarked : ∀ z ∈ w.names ++ ys, optionOf? z = none)
    (pair : ∀ i, Element.Parallel Eq (head.attributes ev) (Awaits w ys) (AgreeBut w.names) ⟨p, i, search ev p⟩
      ⟨p', i, search ev p'⟩) :
    Matcher.Parallel Eq (Awaits w ys) (AgreeBut w.names) (search ev (.compound head (before ++ p :: after)))
      (search ev (.compound head (before ++ p' :: after))) := by
  obtain ⟨unguardedHead, unguarded⟩ := List.append_eq_nil_iff.mp clear.unguarded
  have others (q : Pattern) (member : q ∈ before ∨ q ∈ after) (i : Nat) :=
    parallel_other ev (clear.apart_element inPart member) unmarked
      (guardsOfAll_eq_nil.mp unguarded q (by simp [or_left_comm, member])) (head.attributes ev) i
  have each := allBut_elementsFrom others pair
  have positions : ((elementsFrom ev 1 (before ++ p :: after)).map (·.position)).Nodup := by
    rw [map_position_elementsFrom]
    exact List.nodup_range'
  have positionsInOrder : ((Element.inOrder (head.attributes ev).orderless
      (elementsFrom ev 1 (before ++ p :: after))).map (·.position)).Nodup :=
    ((Element.rearranged_inOrder _ _).perm.map _).nodup_iff.mpr positions
  intro c t b b' awaits
  exact parallel_matchCompound rfl (parallel_awaits (clear.apart_head inPart) unmarked unguardedHead)
    (each.inOrder.chain (fun _ _ awaits => awaits.1) positionsInOrder)
    (each.chain (fun _ _ awaits => awaits.1) positions) c.whole awaits

theorem count_head_le {head : Pattern} {elements : List Pattern} (member : q ∈ elements) (y : String) :
    q.names.count y + head.names.count y ≤ (compound head elements).names.count y := by
  obtain ⟨before, after, rfl⟩ := List.append_of_mem member
  simp only [names, namesOfAll_eq_flatMap, List.flatMap_append, List.flatMap_cons, List.count_append]
  omega

theorem parallel_compound_head {head head' : Pattern} {elements : List Pattern}
    (literal : head.literal? = head'.literal?)
    (headRuns : Matcher.Parallel Eq (Awaits w ys) (AgreeBut w.names) (search ev head) (search ev head'))
    (unmarked : ∀ z ∈ w.names ++ ys, optionOf? z = none)
    (apart : ∀ q ∈ elements, ∀ z ∈ w.names ++ ys, z ∉ q.names) (unguarded : guardsOfAll elements = []) :
    Matcher.Parallel Eq (Awaits w ys) (AgreeBut w.names) (search ev (.compound head elements))
      (search ev (.compound head' elements)) := by
  have others {q : Pattern} (member : q ∈ elements) (i : Nat) :=
    parallel_other ev (apart q member) unmarked (guardsOfAll_eq_nil.mp unguarded q member)
      (head.attributes ev) i
  have pairs : List.Forall₂ (fun e e' => Element.Parallel Eq (head.attributes ev) (Awaits w ys) (Awaits w ys) e e' ∧
      Element.Parallel Eq (head.attributes ev) (AgreeBut w.names) (AgreeBut w.names) e e')
      (elementsFrom ev 1 elements) (elementsFrom ev 1 elements) := by
    refine List.forall₂_same.mpr ?_
    rintro ⟨q, i, matcher⟩ member
    obtain ⟨inElements, (rfl : matcher = search ev q)⟩ := mem_elementsFrom member
    exact others inElements i
  have inOrder := Element.forall₂_inOrder (fun orderless _ _ parallel => parallel.1.rank orderless) pairs
  have inTurn := Element.chain_of_forall₂ (pairs.imp fun _ _ parallel => parallel.1)
  intro c t b b' awaits
  exact parallel_matchCompound literal headRuns (Element.chain_of_forall₂ (inOrder.imp fun _ _ parallel => parallel.2))
    (inTurn.imp fun _ _ awaits => awaits.1) c.whole awaits

/-- Wrapping an element changes nothing but that the variable of the wrapper is bound as well. -/
theorem Wraps.parallel (h : Wraps ev w ys p p') (clear : Clear w ys p)
    (unmarked : ∀ z ∈ w.names ++ ys, optionOf? z = none) :
    Matcher.Parallel Eq (Awaits w ys) (AgreeBut w.names) (search ev p) (search ev p') := by
  induction h with
  | @element head q before after suits =>
    have inPart (y : String) (own : y ∈ Wrapper.decisive (head.attributes ev) q) : y ∈ q.names :=
      Wrapper.mem_names_of_decisive own
    have inner : Clear w _ q := clear.part
    exact parallel_compound_part clear inPart unmarked fun i => element_onPattern suits inner.fresh inner.unguarded i
  | @head ys head head' elements inner ih =>
    obtain ⟨-, unguarded⟩ := List.append_eq_nil_iff.mp clear.unguarded
    have within : Clear w ys head := clear.of_sublist (List.sublist_append_left ..) (List.subset_append_left ..)
    exact parallel_compound_head inner.literal?_eq (ih within unmarked) unmarked
      (fun q member => clear.apart inner.mem_names fun y => count_head_le member y) unguarded
  | @part _ head p p' before after inner ih =>
    have inPart := inner.mem_names
    refine parallel_compound_part clear inPart unmarked fun i => Element.parallel_of_outline inner.outline_eq
      (fun x name b b' awaits => awaits.1 x fun new => ?_) (ih clear.part unmarked) _ i
    exact clear.part.fresh x new (mem_names_of_name? name)
  | @named ys p p' x inner ih =>
    have outline := inner.outline_eq
    have within : Clear w ys p := clear.of_sublist (List.sublist_cons_self ..) (List.Subset.refl _)
    have new : x ∉ w.names := fun new => clear.fresh x new List.mem_cons_self
    refine parallel_named (congrArg Outline.default? outline) (fun b b' awaits => awaits.1 x new)
      (fun b b' v awaits _ => ⟨awaits.1.bind x v, fun z awaited => ?_⟩) (ih within unmarked)
    have other : z ≠ x := by
      have count (y : String) : [x].count y + p.names.count y = (Pattern.named x p).names.count y := by
        rw [names, ← List.count_append, List.singleton_append]
      have apart : ∀ z ∈ w.names ++ ys, z ∉ [x] := clear.apart inner.mem_names fun y => Nat.le_of_eq (count y)
      simpa using apart z awaited
    rw [Bindings.get?_bind, if_neg other, awaits.2 z awaited]
  | optional default _ ih =>
    exact parallel_optional default (ih (clear.of_sublist (List.Sublist.refl _) (List.Subset.refl _)) unmarked)
  | @choice ys p p' before after inner ih =>
    have within : Clear w ys p := by
      refine clear.of_sublist ?_ fun guard inside => mem_guardsOfAll.mpr ⟨p, by simp, inside⟩
      simp only [names, namesOfAll_eq_flatMap, List.flatMap_append, List.flatMap_cons]
      exact (List.sublist_append_left ..).trans (List.sublist_append_right ..)
    have others (q : Pattern) (member : q ∈ before ++ p :: after) :
        Matcher.Parallel Eq (Awaits w ys) (AgreeBut w.names) (search ev q) (search ev q) :=
      parallel_beside (fun x new named => clear.fresh x new (mem_namesOfAll.mpr ⟨q, member, named⟩))
        (guardsOfAll_eq_nil.mp clear.unguarded q member)
    exact parallel_alternatives (List.rel_append (List.forall₂_same.mpr fun q member => others q (by simp [member]))
      (.cons (ih within unmarked) (List.forall₂_same.mpr fun q member => others q (by simp [member]))))
  | excluded fallback inner ih =>
    refine parallel_except (ih (clear.of_sublist (List.sublist_append_left ..) (List.subset_append_left ..)) unmarked)
      (parallel_beside (fun x new named => clear.fresh x new (List.mem_append_right _ named)) ?_)
    exact (List.append_eq_nil_iff.mp clear.unguarded).2
  | fallback excluded inner ih =>
    refine parallel_except (parallel_beside (fun x new named => clear.fresh x new (List.mem_append_left _ named)) ?_)
      (ih (clear.of_sublist (List.sublist_append_right ..) (List.subset_append_right ..)) unmarked)
    exact (List.append_eq_nil_iff.mp clear.unguarded).1
  | hold _ ih => exact ih (clear.of_sublist (List.Sublist.refl _) (List.Subset.refl _)) unmarked
  | test predicate _ ih =>
    exact parallel_test predicate (ih (clear.of_sublist (List.Sublist.refl _) (List.Subset.refl _)) unmarked)
  | repeated least most none _ ih =>
    have inner := ih (clear.of_sublist (List.Sublist.refl _) (List.Subset.refl _)) unmarked
    have anywhere := inner.imp (fun b b' agree => ⟨agree, by simp [none]⟩) fun _ _ agree => agree
    exact (parallel_repeated least most anywhere).imp (fun _ _ awaits => awaits.1) fun _ _ agree => agree

end Pattern

end TermRewriting
