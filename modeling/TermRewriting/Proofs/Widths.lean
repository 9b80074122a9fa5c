import TermRewriting.Proofs.Grammar

/-! Widths of patterns that were read from terms. The most of a width is not below the least, with one
exception: a repetition up to zero times that has to come at least once. -/

namespace TermRewriting

namespace Width

def Ordered (w : Width) : Prop := ∀ most, w.most = some most → w.least ≤ most

theorem ordered_some {least most : Nat} : Ordered ⟨least, some most⟩ ↔ least ≤ most := by
  simp [Ordered]

theorem ordered_none (least : Nat) : Ordered ⟨least, none⟩ := by simp [Ordered]

/-- A width that is not in order stands for no number of siblings at all. -/
theorem ordered_iff {w : Width} : w.Ordered ↔ ∃ n, w.admits n = true := by
  constructor
  · intro ordered
    refine ⟨w.least, Bool.and_eq_true_iff.mpr ⟨decide_eq_true (Nat.le_refl _), ?_⟩⟩
    cases most : w.most with
    | none => rfl
    | some most' => exact decide_eq_true (ordered most' most)
  · rintro ⟨n, admitted⟩ most eq
    simp only [admits, eq, Option.all_some, Bool.and_eq_true, decide_eq_true_eq] at admitted
    omega

/-- In order, or at least one and at most none. -/
def AlmostOrdered (w : Width) : Prop := w.Ordered ∨ w = ⟨1, some 0⟩

variable {v w : Width}

theorem Ordered.join (ordered : v.Ordered) (ordered' : w.Ordered) : (v.join w).Ordered := by
  intro most eq
  obtain ⟨m, some, eq⟩ := Option.bind_eq_some_iff.mp eq
  obtain ⟨n, some', rfl⟩ := Option.map_eq_some_iff.mp eq
  have first := ordered m some
  have second := ordered' n some'
  simp only [Width.join]
  omega

/-- With a width that is in order, the exception is put in order. -/
theorem Ordered.join_exception (ordered : w.Ordered) : (Width.join ⟨1, some 0⟩ w).Ordered := by
  intro most eq
  obtain ⟨n, some, rfl⟩ := Option.map_eq_some_iff.mp eq
  have := ordered n some
  simp only [Width.join]
  omega

theorem join_comm (v w : Width) : v.join w = w.join v := by
  unfold join
  rw [Nat.min_comm]
  cases v.most <;> cases w.most <;> simp [Nat.max_comm]

theorem AlmostOrdered.join (almost : v.AlmostOrdered) (almost' : w.AlmostOrdered) :
    (v.join w).AlmostOrdered := by
  rcases almost with ordered | rfl <;> rcases almost' with ordered' | rfl
  · exact .inl (ordered.join ordered')
  · exact .inl (join_comm v _ ▸ ordered.join_exception)
  · exact .inl ordered'.join_exception
  · exact .inr rfl

theorem ordered_single : single.Ordered := ordered_some.mpr (Nat.le_refl 1)

end Width

theorem Span.ordered_width (span : Span) : span.width.Ordered := by
  cases span with
  | one => exact Width.ordered_single
  | many | any => exact Width.ordered_none _

theorem Construct.eq_name_of_ofName? {name : String} {c : Construct} (h : ofName? name = some c) :
    name = c.name := by
  unfold ofName? at h
  split at h <;> cases h <;> rfl

namespace Pattern

/-- The patterns of which a pattern is made, in the order in which they are read. -/
def parts : Pattern → List Pattern
  | .named _ inner | .optional inner _ | .hold inner | .test inner _ | .condition inner _
  | .repeated inner _ _ => [inner]
  | .alternatives choices => choices
  | .except excluded fallback => [fallback, excluded]
  | .compound head elements => elements ++ [head]
  | .wildcard _ _ | .verbatim _ | .options _ _ | .literal _ => []

/-- A pattern occurs in itself and in what it is a part of, at any depth. -/
inductive OccursIn (q : Pattern) : Pattern → Prop
  | self : OccursIn q q
  | part {r p : Pattern} : r ∈ p.parts → OccursIn q r → OccursIn q p

theorem OccursIn.trans {p q r : Pattern} (h : p.OccursIn q) (h' : q.OccursIn r) : p.OccursIn r := by
  induction h' with
  | self => exact h
  | part member _ ih => exact .part member ih

theorem induct_parts {P : Pattern → Prop} (step : ∀ p, (∀ r ∈ p.parts, P r) → P p) (p : Pattern) :
    P p := by
  induction p using Pattern.induct with
  | wildcard | verbatim | options | literal => exact step _ (by simp [parts])
  | named _ _ ih | optional _ _ ih | hold _ ih | test _ _ ih | condition _ _ ih | repeated _ _ _ ih =>
    exact step _ (by simpa [parts] using ih)
  | alternatives _ each => exact step _ each
  | except _ _ ih ih' => exact step _ (by simpa [parts] using ⟨ih', ih⟩)
  | compound _ _ ih each => exact step _ (by simpa [parts, or_imp, forall_and] using ⟨each, ih⟩)

/-- The terms from which the parts of a pattern are read. -/
def sources : Term → List Term
  | .app head args => Construct.inner (Construct.ofHead? head) head args
  | _ => []

theorem nodes_eq (t : Term) : nodes t = t :: (sources t).flatMap nodes := by
  cases t with
  | app head args => exact nodes_app head args
  | _ => rfl

/-- The parts are read from the sources, in the same order. A fallback that is not given comes before
them and is read from none. -/
theorem parts_of_isRead {t : Term} {p : Pattern} (h : IsRead t p) :
    ∃ given, List.Forall₂ IsRead (sources t) given ∧
      (p.parts = given ∨ p.parts = .wildcard .one none :: given) := by
  obtain ⟨cell, read⟩ := h
  cases readFrom_of_compileAt read with
  | literal atom =>
    cases t with
    | app => cases atom
    | _ => exact ⟨[], .nil, .inl rfl⟩
  | compound construct compiled arguments =>
    rw [sources, construct]
    refine ⟨_, List.rel_append (forall₂_of_compileArgs arguments) (.cons ⟨_, compiled⟩ .nil), .inl rfl⟩
  | alternatives construct arguments =>
    rw [sources, construct]
    exact ⟨_, forall₂_of_compileArgs arguments, .inl rfl⟩
  | exceptOnly construct excluded =>
    rw [sources, construct]
    exact ⟨_, .cons ⟨_, excluded⟩ .nil, .inr rfl⟩
  | except construct excluded fallback =>
    rw [sources, construct]
    exact ⟨_, .cons ⟨_, fallback⟩ (.cons ⟨_, excluded⟩ .nil), .inl rfl⟩
  | named construct _ inner | hold construct inner | test construct inner | condition construct inner
  | repeated construct inner | repeatedRange construct inner _ | optional construct _ inner =>
    rw [sources, construct]
    exact ⟨_, .cons ⟨_, inner⟩ .nil, .inl rfl⟩
  | wildcard _ construct _ | verbatim construct _ | options construct _ =>
    rw [sources, construct]
    exact ⟨[], .nil, .inl rfl⟩

/-- What occurs in a pattern was read from a node, unless it is a fallback that is not given. -/
theorem exists_node {t : Term} {p q : Pattern} (h : IsRead t p) (occurs : q.OccursIn p) :
    (∃ u ∈ nodes t, IsRead u q) ∨ q = .wildcard .one none := by
  induction occurs generalizing t with
  | self => exact .inl ⟨t, by rw [nodes_eq]; simp, h⟩
  | @part r p member occurs ih =>
    obtain ⟨given, readAs, parts⟩ := parts_of_isRead h
    have cases : r ∈ given ∨ r = .wildcard .one none := by
      rcases parts with eq | eq <;> rw [eq] at member
      · exact .inl member
      · exact (List.mem_cons.mp member).symm
    rcases cases with inGiven | rfl
    · obtain ⟨u, source, read⟩ := (exists_of_forall₂ readAs).2 r inGiven
      refine (ih read).imp_left fun ⟨v, inside, found⟩ => ⟨v, ?_, found⟩
      rw [nodes_eq]
      exact List.mem_cons_of_mem _ (List.mem_flatMap.mpr ⟨u, source, inside⟩)
    · cases occurs with
      | self => exact .inr rfl
      | part inside => cases inside

/-- Every node of a term was read as something that occurs in the pattern. -/
theorem exists_occurring {t u : Term} {p : Pattern} (h : IsRead t p) (node : u ∈ nodes t) :
    ∃ q, IsRead u q ∧ q.OccursIn p := by
  induction p using induct_parts generalizing t with
  | step p ih =>
    rw [nodes_eq] at node
    rcases List.mem_cons.mp node with rfl | node
    · exact ⟨p, h, .self⟩
    · obtain ⟨v, source, inside⟩ := List.mem_flatMap.mp node
      obtain ⟨given, readAs, parts⟩ := parts_of_isRead h
      obtain ⟨r, inGiven, read⟩ := (exists_of_forall₂ readAs).1 v source
      have member : r ∈ p.parts := by rcases parts with eq | eq <;> simp [eq, inGiven]
      obtain ⟨q, found, occurs⟩ := ih r member read inside
      exact ⟨q, found, .part member occurs⟩

/-- A range is in order, unless it is a single number below the least of the construct. -/
theorem ordered_of_range? {least : Nat} {t : Term} {w : Width} (h : range? least t = some w) :
    w.Ordered ∨ ∃ n : Nat, n < least ∧ t = .integer n ∧ w = ⟨least, some n⟩ := by
  have number (n : Nat) : count? (.integer n) = some n := count?_eq_some_iff.mpr rfl
  cases isRange_of_range? h with
  | upTo n =>
    obtain rfl : ⟨least, some n⟩ = w := by simpa [range?, Term.isCall, number] using h
    rcases Nat.lt_or_ge n least with below | le
    · exact .inr ⟨n, below, rfl, rfl⟩
    · exact .inl (Width.ordered_some.mpr le)
  | exactly n =>
    obtain rfl : ⟨n, some n⟩ = w := by
      simpa [range?, Term.list, Term.call, Term.isCall, Term.isSymbol, Term.symbol?, Term.args, number] using h
    exact .inl (Width.ordered_some.mpr (Nat.le_refl n))
  | @between lo hi le =>
    obtain rfl : ⟨lo, some hi⟩ = w := by
      simpa [range?, Term.list, Term.call, Term.isCall, Term.isSymbol, Term.symbol?, Term.args, number, le] using h
    exact .inl (Width.ordered_some.mpr le)
  | atLeast lo =>
    obtain rfl : ⟨lo, none⟩ = w := by
      simpa [range?, Term.list, Term.call, Term.isCall, Term.isSymbol, Term.symbol?, Term.args, number] using h
    exact .inl (Width.ordered_none lo)

/-- A repetition is in order, unless it was read as one up to zero times that has to come at least
once. -/
theorem ordered_of_isRead {t : Term} {inner : Pattern} {least : Nat} {most : Option Nat}
    (h : IsRead t (.repeated inner least most)) :
    Width.Ordered ⟨least, most⟩ ∨
      (∃ u, t = .call "Repeated" [u, .integer 0]) ∧ least = 1 ∧ most = some 0 := by
  obtain ⟨cell, read⟩ := h
  cases readFrom_of_compileAt read with
  | repeated => exact .inl (Width.ordered_none _)
  | @repeatedRange head u _ orNone _ w construct inner range =>
    refine (ordered_of_range? range).imp_right fun ⟨n, below, number, width⟩ => ?_
    obtain ⟨name, symbol, named⟩ := Option.bind_eq_some_iff.mp construct
    rw [Term.eq_symbol_of_isSymbol (beq_iff_eq.mpr symbol), Construct.eq_name_of_ofName? named, number, width]
    cases orNone with
    | true => cases below
    | false =>
      obtain rfl := Nat.lt_one_iff.mp below
      exact ⟨⟨u, rfl⟩, rfl, rfl⟩

theorem repeated_of_isRead {u : Term} {p : Pattern} (h : IsRead (.call "Repeated" [u, .integer 0]) p) :
    ∃ inner, p = .repeated inner 1 (some 0) := by
  obtain ⟨cell, read⟩ := h
  have read : (compileAt (1 :: cell) u >>= fun inner => pure (.repeated inner 1 (some 0))) = .ok p := read
  obtain ⟨inner, -, made⟩ := bind_eq_ok.mp read
  exact ⟨inner, (pure_eq_ok.mp made).symm⟩

theorem holds_widthOfAny {P : Width → Prop} (single : P .single)
    (joined : ∀ v w, P v → P w → P (v.join w)) {choices : List Pattern}
    (each : ∀ q ∈ choices, P q.width) : P (widthOfAny choices) := by
  induction choices with
  | nil => exact single
  | cons q choices ih =>
    obtain ⟨first, later⟩ := List.forall_mem_cons.mp each
    cases choices with
    | nil => exact first
    | cons => exact joined _ _ first (ih later)

/-- A property of widths that are in order and of ranges of repetitions is one of all widths, if it is
one of the join of two. -/
theorem holds_width {P : Width → Prop} (ordered : ∀ w : Width, w.Ordered → P w)
    (joined : ∀ v w, P v → P w → P (v.join w)) {p : Pattern}
    (repeated : ∀ inner least most, (Pattern.repeated inner least most).OccursIn p → P ⟨least, most⟩) :
    P p.width := by
  induction p using Pattern.induct with
  | wildcard span => exact ordered _ span.ordered_width
  | named _ _ ih | hold _ ih | test _ _ ih | condition _ _ ih =>
    exact ih fun inner least most occurs => repeated inner least most (.part (by simp [parts]) occurs)
  | optional => exact ordered _ (Width.ordered_some.mpr (Nat.zero_le 1))
  | alternatives choices each =>
    have choice (q : Pattern) (member : q ∈ choices) : P q.width :=
      each q member fun inner least most occurs => repeated inner least most (.part member occurs)
    exact holds_widthOfAny (ordered _ Width.ordered_single) joined choice
  | repeated inner least most => exact repeated inner least most .self
  | options => exact ordered _ (Width.ordered_none 0)
  | except | verbatim | compound | literal => exact ordered _ Width.ordered_single

theorem search_of_not_ordered {inner : Pattern} {least : Nat} {most : Option Nat}
    (reversed : ¬ Width.Ordered ⟨least, most⟩) (ev : Evaluator) (c : Context) (t : Term) (b : Bindings) :
    (Pattern.repeated inner least most).search ev c t b = .done := by
  rw [search, if_neg fun admitted => reversed (Width.ordered_iff.mpr ⟨_, admitted⟩)]

/-- Read as a pattern, a term has no repetition and no part whose most is below its least, other than
the range from one to none. That comes about exactly where the term asks for something to be repeated,
up to zero times. -/
theorem ordered_of_compile {t : Term} {p : Pattern} (h : compile t = .ok p) :
    (∀ inner least most, (Pattern.repeated inner least most).OccursIn p →
      Width.AlmostOrdered ⟨least, most⟩) ∧
    (∀ q : Pattern, q.OccursIn p → q.width.AlmostOrdered) ∧
    ((∀ q : Pattern, q.OccursIn p → q.width.Ordered) ↔
      ∀ u, .call "Repeated" [u, .integer 0] ∉ nodes t) := by
  have read : IsRead t p := ⟨[], h⟩
  -- Each repetition was read from a node, since a fallback that is not given is none.
  have node {q : Pattern} (occurs : q.OccursIn p) {inner : Pattern} {least : Nat} {most : Option Nat}
      (repetition : (Pattern.repeated inner least most).OccursIn q) :
      ∃ u ∈ nodes t, IsRead u (.repeated inner least most) :=
    (exists_node read (repetition.trans occurs)).resolve_right (by simp)
  have repetition {q : Pattern} (occurs : q.OccursIn p) (inner : Pattern) (least : Nat) (most : Option Nat)
      (inside : (Pattern.repeated inner least most).OccursIn q) : Width.AlmostOrdered ⟨least, most⟩ := by
    obtain ⟨u, -, read⟩ := node occurs inside
    exact (ordered_of_isRead read).imp_right fun ⟨_, one, zero⟩ => by rw [one, zero]
  refine ⟨repetition .self, fun q occurs => ?_, fun ordered u inside => ?_, fun absent q occurs => ?_⟩
  · exact holds_width (fun _ => .inl) (fun _ _ => .join) (repetition occurs)
  · obtain ⟨q, readFrom, occurs⟩ := exists_occurring read inside
    obtain ⟨inner, rfl⟩ := repeated_of_isRead readFrom
    exact absurd (Width.ordered_some.mp (ordered _ occurs)) (Nat.not_succ_le_zero 0)
  · refine holds_width (fun _ => id) (fun _ _ => .join) fun inner least most inside => ?_
    obtain ⟨u, inNodes, readFrom⟩ := node occurs inside
    refine (ordered_of_isRead readFrom).resolve_right ?_
    rintro ⟨⟨v, rfl⟩, -⟩
    exact absent v inNodes

theorem ordered_of_compile_choice :
    let source := Term.call "Alternatives" [.call "Repeated" [.symbol "x", .integer 2],
      .call "f" [.call "RepeatedNull" [.symbol "y", .integer 0]]]
    ∃ p, compile source = .ok p ∧ ∀ q : Pattern, q.OccursIn p → q.width.Ordered := by
  intro source
  have compiled : compile source = .ok (.alternatives [.repeated (.literal (.symbol "x")) 1 (some 2),
      .compound (.literal (.symbol "f")) [.repeated (.literal (.symbol "y")) 0 (some 0)]]) := rfl
  refine ⟨_, compiled, (ordered_of_compile compiled).2.2.mpr fun u => ?_⟩
  simp [source, nodes, nodesOfEach, Construct.inner, Construct.ofHead?, Construct.ofName?, Term.call,
    Term.symbol?]

/-- A single number is not compared with the least number of repetitions, as the numbers of a list are
with each other. -/
theorem reversed_range :
    let upToZero := Term.call "Repeated" [.symbol "x", .integer 0]
    let oneToZero := Term.call "Repeated" [.symbol "x", .list [.integer 1, .integer 0]]
    (∃ p, compile upToZero = .ok p ∧ ¬p.width.Ordered) ∧
      compile oneToZero = .error (.repeatedRange oneToZero) :=
  ⟨⟨_, rfl, mt Width.ordered_some.mp (Nat.not_succ_le_zero 0)⟩, rfl⟩

end Pattern

end TermRewriting
