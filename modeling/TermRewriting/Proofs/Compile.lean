import TermRewriting.Pattern.Compile
import TermRewriting.Proofs.Matching.Row
import TermRewriting.Proofs.Term.Plain

/-! What a pattern was read from: one case for each kind of pattern, with the parts that were read
before it. Whether a term can be read does not depend on the position. -/

namespace TermRewriting

def failure? {ε α : Type} : Except ε α → Option ε
  | .ok _ => none
  | .error e => some e

section

variable {ε α β : Type}

theorem failure?_map (f : α → β) (x : Except ε α) : failure? (x.map f) = failure? x := by
  cases x <;> rfl

theorem failure?_eq_none_iff {x : Except ε α} : failure? x = none ↔ ∃ a, x = .ok a := by
  cases x <;> simp [failure?]

theorem failure?_eq_some_iff {x : Except ε α} {e : ε} : failure? x = some e ↔ x = .error e := by
  cases x <;> simp [failure?]

theorem failure?_bind (x : Except ε α) (f : α → Except ε β) (later : Option ε)
    (each : ∀ a, failure? (f a) = later) : failure? (x.bind f) = (failure? x).or later := by
  cases x with
  | error e => rfl
  | ok a => exact each a

end

namespace Pattern

section

variable {ε α β : Type}

theorem bind_eq_ok {x : Except ε α} {f : α → Except ε β} {b : β} :
    (x >>= f) = .ok b ↔ ∃ a, x = .ok a ∧ f a = .ok b := by
  cases x with
  | error e => simp [bind, Except.bind]
  | ok a => simp [bind, Except.bind]

theorem pure_eq_ok {a b : α} : (pure a : Except ε α) = .ok b ↔ a = b := by simp [pure, Except.pure]

end

/-- The pattern is what the term is read as at that position. -/
inductive ReadFrom (cell : Position) : Term → Pattern → Prop
  | literal {t : Term} : t.isAtom = true → ReadFrom cell t (.literal t)
  | compound {head : Term} {args : List Term} {p : Pattern} {elements : List Pattern} :
    Construct.ofHead? head = none → compileAt (0 :: cell) head = .ok p →
      compileArgs cell 1 args = .ok elements → ReadFrom cell (.app head args) (.compound p elements)
  | wildcard {head : Term} {args : List Term} (span : Span) :
    Construct.ofHead? head = some (.wildcard span) → args.length ≤ 1 →
      ReadFrom cell (.app head args) (.wildcard span args.head?)
  | named {head name inner : Term} {x : String} {p : Pattern} :
    Construct.ofHead? head = some .named → name.symbol? = some x →
      compileAt (2 :: cell) inner = .ok p → ReadFrom cell (.app head [name, inner]) (.named x p)
  | optional {head inner : Term} {rest : List Term} {p : Pattern} :
    Construct.ofHead? head = some .optional → rest.length ≤ 1 →
      compileAt (1 :: cell) inner = .ok p →
        ReadFrom cell (.app head (inner :: rest)) (.optional p rest.head?)
  | alternatives {head : Term} {args : List Term} {choices : List Pattern} :
    Construct.ofHead? head = some .alternatives → compileArgs cell 1 args = .ok choices →
      ReadFrom cell (.app head args) (.alternatives choices)
  | exceptOnly {head excluded : Term} {p : Pattern} :
    Construct.ofHead? head = some .except → compileAt (1 :: cell) excluded = .ok p →
      ReadFrom cell (.app head [excluded]) (.except p (.wildcard .one none))
  | except {head excluded fallback : Term} {p q : Pattern} :
    Construct.ofHead? head = some .except → compileAt (1 :: cell) excluded = .ok p →
      compileAt (2 :: cell) fallback = .ok q →
        ReadFrom cell (.app head [excluded, fallback]) (.except p q)
  | verbatim {head t : Term} {rest : List Term} :
    Construct.ofHead? head = some .verbatim → rest.length ≤ 1 →
      ReadFrom cell (.app head (t :: rest)) (.verbatim t)
  | hold {head inner : Term} {p : Pattern} :
    Construct.ofHead? head = some .hold → compileAt (1 :: cell) inner = .ok p →
      ReadFrom cell (.app head [inner]) (.hold p)
  | test {head inner predicate : Term} {p : Pattern} :
    Construct.ofHead? head = some .test → compileAt (1 :: cell) inner = .ok p →
      ReadFrom cell (.app head [inner, predicate]) (.test p predicate)
  | condition {head inner guard : Term} {p : Pattern} :
    Construct.ofHead? head = some .condition → compileAt (1 :: cell) inner = .ok p →
      ReadFrom cell (.app head [inner, guard]) (.condition p guard)
  | repeated {head inner : Term} {orNone : Bool} {p : Pattern} :
    Construct.ofHead? head = some (.repeated orNone) → compileAt (1 :: cell) inner = .ok p →
      ReadFrom cell (.app head [inner]) (.repeated p (leastRepetitions orNone) none)
  | repeatedRange {head inner range : Term} {orNone : Bool} {p : Pattern} {w : Width} :
    Construct.ofHead? head = some (.repeated orNone) → compileAt (1 :: cell) inner = .ok p →
      range? (leastRepetitions orNone) range = some w →
        ReadFrom cell (.app head [inner, range]) (.repeated p w.least w.most)
  | options {head : Term} {args : List Term} :
    Construct.ofHead? head = some .options → args.length ≤ 1 →
      ReadFrom cell (.app head args) (.options cell args.head?)

theorem readFrom_of_compileAt {cell : Position} {t : Term} {p : Pattern}
    (h : compileAt cell t = .ok p) : ReadFrom cell t p := by
  cases t with
  | app head args =>
    unfold compileAt at h
    split at h <;> try simp only [bind_eq_ok, pure_eq_ok] at h
    · next none =>
      obtain ⟨elements, arguments, p, head, rfl⟩ := h
      exact .compound none head arguments
    · next construct =>
      obtain rfl := h
      exact .wildcard _ construct (by simp)
    · next construct =>
      obtain rfl := h
      exact .wildcard _ construct (by simp)
    · next name inner construct =>
      cases symbol : name.symbol? with
      | none => simp [symbol, throw, throwThe, MonadExceptOf.throw] at h
      | some x =>
        simp only [symbol, bind_eq_ok, pure_eq_ok] at h
        obtain ⟨p, inner, rfl⟩ := h
        exact .named construct symbol inner
    · next construct =>
      obtain ⟨p, inner, rfl⟩ := h
      exact .optional construct (by simp) inner
    · next construct =>
      obtain ⟨p, inner, rfl⟩ := h
      exact .optional construct (by simp) inner
    · next construct =>
      obtain ⟨choices, arguments, rfl⟩ := h
      exact .alternatives construct arguments
    · next construct =>
      obtain ⟨p, excluded, rfl⟩ := h
      exact .exceptOnly construct excluded
    · next construct =>
      obtain ⟨q, fallback, p, excluded, rfl⟩ := h
      exact .except construct excluded fallback
    · next construct =>
      obtain rfl := h
      exact .verbatim construct (by simp)
    · next construct =>
      obtain rfl := h
      exact .verbatim construct (by simp)
    · next construct =>
      obtain ⟨p, inner, rfl⟩ := h
      exact .hold construct inner
    · next construct =>
      obtain ⟨p, inner, rfl⟩ := h
      exact .test construct inner
    · next construct =>
      obtain ⟨p, inner, rfl⟩ := h
      exact .condition construct inner
    · next construct =>
      obtain ⟨p, inner, rfl⟩ := h
      exact .repeated construct inner
    · next orNone inner range construct =>
      cases width : range? (leastRepetitions orNone) range with
      | none => simp [width, throw, throwThe, MonadExceptOf.throw] at h
      | some w =>
        simp only [width, bind_eq_ok, pure_eq_ok] at h
        obtain ⟨p, inner, rfl⟩ := h
        exact .repeatedRange construct inner width
    · next construct =>
      obtain rfl := h
      exact .options construct (by simp)
    · next construct =>
      obtain rfl := h
      exact .options construct (by simp)
    · simp [throw, throwThe, MonadExceptOf.throw] at h
  | _ =>
    obtain rfl := Except.ok.inj h
    exact .literal rfl

theorem compileAt_of_readFrom {cell : Position} {t : Term} {p : Pattern} (h : ReadFrom cell t p) :
    compileAt cell t = .ok p := by
  cases h with
  | @literal t atom => cases t <;> first | rfl | cases atom
  | compound construct compiled arguments =>
    unfold compileAt
    simp only [construct, bind_eq_ok, pure_eq_ok]
    exact ⟨_, arguments, _, compiled, rfl⟩
  | alternatives construct arguments =>
    unfold compileAt
    simp only [construct, bind_eq_ok, pure_eq_ok]
    exact ⟨_, arguments, rfl⟩
  | except construct excluded fallback =>
    unfold compileAt
    simp only [construct, bind_eq_ok, pure_eq_ok]
    exact ⟨_, fallback, _, excluded, rfl⟩
  | named construct symbol inner =>
    unfold compileAt
    simp only [construct, symbol, bind_eq_ok, pure_eq_ok]
    exact ⟨_, inner, rfl⟩
  | repeatedRange construct inner range =>
    unfold compileAt
    simp only [construct, range, bind_eq_ok, pure_eq_ok]
    exact ⟨_, inner, rfl⟩
  | exceptOnly construct inner | hold construct inner | test construct inner | condition construct inner
  | repeated construct inner =>
    unfold compileAt
    simp only [construct, bind_eq_ok, pure_eq_ok]
    exact ⟨_, inner, rfl⟩
  | @optional _ _ rest _ construct short inner =>
    unfold compileAt
    match rest, short with
    | [], _ | [_], _ =>
      simp only [construct, bind_eq_ok, pure_eq_ok]
      exact ⟨_, inner, rfl⟩
  | @verbatim _ _ rest construct short =>
    unfold compileAt
    match rest, short with
    | [], _ | [_], _ =>
      simp only [construct]
      rfl
  | @wildcard _ args _ construct short | @options _ args construct short =>
    unfold compileAt
    match args, short with
    | [], _ | [_], _ =>
      simp only [construct]
      rfl

theorem symbol?_of_compileAt {cell : Position} {t : Term} {p : Pattern} (h : compileAt cell t = .ok p) :
    p.symbol? = t.symbol? := by
  cases readFrom_of_compileAt h <;> rfl

/-- The pattern is what the term is read as somewhere. -/
def IsRead (t : Term) (p : Pattern) : Prop := ∃ cell, compileAt cell t = .ok p

theorem forall₂_of_compileArgs {cell : Position} {number : Nat} {ts : List Term} {ps : List Pattern}
    (h : compileArgs cell number ts = .ok ps) : List.Forall₂ IsRead ts ps := by
  induction ts generalizing number ps with
  | nil =>
    obtain rfl := Except.ok.inj h
    exact .nil
  | cons t ts ih =>
    simp only [compileArgs, bind_eq_ok, pure_eq_ok] at h
    obtain ⟨p, first, ps, later, rfl⟩ := h
    exact .cons ⟨_, first⟩ (ih later)

theorem exists_of_forall₂ {α β : Type} {R : α → β → Prop} {as : List α} {bs : List β}
    (h : List.Forall₂ R as bs) : (∀ a ∈ as, ∃ b ∈ bs, R a b) ∧ ∀ b ∈ bs, ∃ a ∈ as, R a b := by
  induction h with
  | nil => simp
  | @cons a b as bs here _ ih =>
    constructor
    · rintro x (_ | ⟨_, member⟩)
      · exact ⟨b, by simp, here⟩
      · obtain ⟨y, inList, related⟩ := ih.1 x member
        exact ⟨y, by simp [inList], related⟩
    · rintro y (_ | ⟨_, member⟩)
      · exact ⟨a, by simp, here⟩
      · obtain ⟨x, inList, related⟩ := ih.2 y member
        exact ⟨x, by simp [inList], related⟩

theorem exists_of_mem_compileArgs {cell : Position} {number : Nat} {ts : List Term}
    {ps : List Pattern} (h : compileArgs cell number ts = .ok ps) :
    ∀ p ∈ ps, ∃ t ∈ ts, IsRead t p := (exists_of_forall₂ (forall₂_of_compileArgs h)).2

/-- A symbol that does not occur in a term is no variable of the pattern read from it. -/
theorem not_mem_names_of_compileAt {x : String} {t : Term} (absent : t.every (!·.isSymbol x) = true)
    {cell : Position} {p : Pattern} (h : compileAt cell t = .ok p) : x ∉ p.names := by
  induction t using Term.induct generalizing cell p with
  | app head args head_ih ih =>
    obtain ⟨-, inHead, inArgs⟩ := Term.every_app.mp absent
    have part {t : Term} {cell : Position} {p : Pattern} (h : compileAt cell t = .ok p)
        (member : t ∈ args) : x ∉ p.names := ih t member (inArgs t member) h
    have parts {number : Nat} {ps : List Pattern} (h : compileArgs cell number args = .ok ps) :
        x ∉ namesOfAll ps := by
      intro member
      obtain ⟨p, inList, named⟩ := mem_namesOfAll.mp member
      obtain ⟨t, inTerms, _, compiled⟩ := exists_of_mem_compileArgs h p inList
      exact part compiled inTerms named
    cases readFrom_of_compileAt h with
    | literal isAtom => cases isAtom
    | compound _ compiled arguments =>
      rw [names, List.mem_append, not_or]
      exact ⟨head_ih inHead compiled, parts arguments⟩
    | @named _ name _ y _ _ symbol inner =>
      have other : x ≠ y := by
        rintro rfl
        have := Term.holds_of_every (inArgs name (by simp))
        simp [Term.isSymbol, symbol] at this
      rw [names, List.mem_cons, not_or]
      exact ⟨other, part inner (by simp)⟩
    | alternatives _ arguments => exact parts arguments
    | exceptOnly _ excluded =>
      rw [names, List.mem_append, not_or]
      exact ⟨part excluded (by simp), by simp [names]⟩
    | except _ excluded fallback =>
      rw [names, List.mem_append, not_or]
      exact ⟨part excluded (by simp), part fallback (by simp)⟩
    | optional _ _ inner | hold _ inner | test _ inner | condition _ inner | repeated _ inner
    | repeatedRange _ inner _ =>
      rw [names]
      exact part inner (by simp)
    | wildcard | verbatim | options => simp [names]
  | _ =>
    obtain rfl := Except.ok.inj h
    simp [names]

theorem exists_compileArgs {cell : Position} {number : Nat} {ts : List Term} {ps : List Pattern}
    (each : ∀ t ∈ ts, ∀ cell p, compileAt cell t = .ok p → ∀ cell, ∃ p, compileAt cell t = .ok p)
    (h : compileArgs cell number ts = .ok ps) (cell' : Position) (number' : Nat) :
    ∃ ps, compileArgs cell' number' ts = .ok ps := by
  induction ts generalizing number number' ps with
  | nil => exact ⟨[], rfl⟩
  | cons t ts ih =>
    simp only [compileArgs, bind_eq_ok, pure_eq_ok] at h
    obtain ⟨p, first, ps, later, -⟩ := h
    obtain ⟨p', first⟩ := each t (by simp) _ _ first (number' :: cell')
    obtain ⟨ps', later⟩ := ih (fun t member => each t (by simp [member])) later (number' + 1)
    simp only [compileArgs, bind_eq_ok, pure_eq_ok]
    exact ⟨_, p', first, ps', later, rfl⟩

/-- Whether a term can be read as a pattern does not depend on where it stands. -/
theorem exists_compileAt {cell : Position} {t : Term} {p : Pattern} (h : compileAt cell t = .ok p)
    (cell' : Position) : ∃ p, compileAt cell' t = .ok p := by
  induction t using Term.induct generalizing cell cell' p with
  | app head args head_ih ih =>
    have part {t : Term} {cell : Position} {p : Pattern} (member : t ∈ args)
        (h : compileAt cell t = .ok p) (cell' : Position) : ∃ p, compileAt cell' t = .ok p :=
      ih t member h cell'
    have parts {number : Nat} {ps : List Pattern} (h : compileArgs cell number args = .ok ps) :
        ∃ ps, compileArgs cell' 1 args = .ok ps :=
      exists_compileArgs (fun t member _ _ h => part member h) h cell' 1
    cases readFrom_of_compileAt h with
    | literal isAtom => cases isAtom
    | compound construct compiled arguments =>
      obtain ⟨_, compiled⟩ := head_ih compiled (0 :: cell')
      obtain ⟨_, arguments⟩ := parts arguments
      exact ⟨_, compileAt_of_readFrom (.compound construct compiled arguments)⟩
    | alternatives construct arguments =>
      obtain ⟨_, arguments⟩ := parts arguments
      exact ⟨_, compileAt_of_readFrom (.alternatives construct arguments)⟩
    | except construct excluded fallback =>
      obtain ⟨_, excluded⟩ := part (by simp) excluded (1 :: cell')
      obtain ⟨_, fallback⟩ := part (by simp) fallback (2 :: cell')
      exact ⟨_, compileAt_of_readFrom (.except construct excluded fallback)⟩
    | named construct symbol inner =>
      obtain ⟨_, inner⟩ := part (by simp) inner (2 :: cell')
      exact ⟨_, compileAt_of_readFrom (.named construct symbol inner)⟩
    | optional construct short inner =>
      obtain ⟨_, inner⟩ := part (by simp) inner (1 :: cell')
      exact ⟨_, compileAt_of_readFrom (.optional construct short inner)⟩
    | exceptOnly construct inner =>
      obtain ⟨_, inner⟩ := part (by simp) inner (1 :: cell')
      exact ⟨_, compileAt_of_readFrom (.exceptOnly construct inner)⟩
    | hold construct inner =>
      obtain ⟨_, inner⟩ := part (by simp) inner (1 :: cell')
      exact ⟨_, compileAt_of_readFrom (.hold construct inner)⟩
    | test construct inner =>
      obtain ⟨_, inner⟩ := part (by simp) inner (1 :: cell')
      exact ⟨_, compileAt_of_readFrom (.test construct inner)⟩
    | condition construct inner =>
      obtain ⟨_, inner⟩ := part (by simp) inner (1 :: cell')
      exact ⟨_, compileAt_of_readFrom (.condition construct inner)⟩
    | repeated construct inner =>
      obtain ⟨_, inner⟩ := part (by simp) inner (1 :: cell')
      exact ⟨_, compileAt_of_readFrom (.repeated construct inner)⟩
    | repeatedRange construct inner range =>
      obtain ⟨_, inner⟩ := part (by simp) inner (1 :: cell')
      exact ⟨_, compileAt_of_readFrom (.repeatedRange construct inner range)⟩
    | verbatim construct short => exact ⟨_, compileAt_of_readFrom (.verbatim construct short)⟩
    | wildcard span construct short => exact ⟨_, compileAt_of_readFrom (.wildcard span construct short)⟩
    | options construct short => exact ⟨_, compileAt_of_readFrom (.options construct short)⟩
  | _ => exact ⟨_, rfl⟩

end Pattern

end TermRewriting
