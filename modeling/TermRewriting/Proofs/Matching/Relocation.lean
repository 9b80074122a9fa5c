import TermRewriting.Proofs.Compile

/-! Where a term stands when it is read as a pattern only shows in the cells of the options in it. The
pattern read elsewhere has its cells elsewhere, and is the same apart from that. -/

namespace TermRewriting.Pattern

mutual

/-- The patterns for options of a call, each with its cell and its defaults. -/
@[grind =]
def optionPatterns : Pattern → List (Position × Option Term)
  | .options cell explicit => [(cell, explicit)]
  | .named _ inner | .optional inner _ | .hold inner | .test inner _ | .condition inner _
  | .repeated inner _ _ => inner.optionPatterns
  | .alternatives choices => optionPatternsOfAll choices
  | .except excluded fallback => excluded.optionPatterns ++ fallback.optionPatterns
  | .compound head elements => head.optionPatterns ++ optionPatternsOfAll elements
  | .wildcard _ _ | .verbatim _ | .literal _ => []

@[grind =]
def optionPatternsOfAll : List Pattern → List (Position × Option Term)
  | [] => []
  | p :: ps => p.optionPatterns ++ optionPatternsOfAll ps

end

theorem mem_optionPatternsOfAll {ps : List Pattern} {entry : Position × Option Term} :
    entry ∈ optionPatternsOfAll ps ↔ ∃ p ∈ ps, entry ∈ p.optionPatterns := by
  induction ps with
  | nil => simp [optionPatternsOfAll]
  | cons p ps ih => simp [optionPatternsOfAll, ih]

theorem optionPatternsOfAll_eq_nil {ps : List Pattern} :
    optionPatternsOfAll ps = [] ↔ ∀ p ∈ ps, p.optionPatterns = [] := by
  simp only [List.eq_nil_iff_forall_not_mem, mem_optionPatternsOfAll, not_exists, not_and]
  exact ⟨fun h p member entry => h entry p member, fun h entry p member => h p member entry⟩

mutual

@[grind =]
def relocate (f : Position → Position) : Pattern → Pattern
  | .wildcard span head => .wildcard span head
  | .named name inner => .named name (relocate f inner)
  | .optional inner default => .optional (relocate f inner) default
  | .alternatives choices => .alternatives (relocateAll f choices)
  | .except excluded fallback => .except (relocate f excluded) (relocate f fallback)
  | .verbatim t => .verbatim t
  | .hold inner => .hold (relocate f inner)
  | .test inner predicate => .test (relocate f inner) predicate
  | .condition inner guard => .condition (relocate f inner) guard
  | .repeated inner least most => .repeated (relocate f inner) least most
  | .options cell defaults => .options (f cell) defaults
  | .compound head elements => .compound (relocate f head) (relocateAll f elements)
  | .literal t => .literal t

@[grind =]
def relocateAll (f : Position → Position) : List Pattern → List Pattern
  | [] => []
  | p :: ps => relocate f p :: relocateAll f ps

end

variable {f g : Position → Position}

theorem relocateAll_eq_map (ps : List Pattern) : relocateAll f ps = ps.map (relocate f) := by
  induction ps with
  | nil => rfl
  | cons p ps ih => rw [relocateAll, ih, List.map_cons]

theorem relocate_congr {p : Pattern} (same : ∀ entry ∈ p.optionPatterns, f entry.1 = g entry.1) :
    p.relocate f = p.relocate g := by
  have ofAll {ps : List Pattern}
      (each : ∀ p ∈ ps, (∀ entry ∈ p.optionPatterns, f entry.1 = g entry.1) → p.relocate f = p.relocate g)
      (same : ∀ entry ∈ optionPatternsOfAll ps, f entry.1 = g entry.1) :
      relocateAll f ps = relocateAll g ps := by
    rw [relocateAll_eq_map, relocateAll_eq_map]
    exact List.map_congr_left fun p member => each p member fun entry inside =>
      same entry (mem_optionPatternsOfAll.mpr ⟨p, member, inside⟩)
  induction p using Pattern.induct with
  | named _ _ ih | optional _ _ ih | hold _ ih | test _ _ ih | condition _ _ ih | repeated _ _ _ ih =>
    simp only [relocate, ih same]
  | alternatives choices ih => simp only [relocate, ofAll ih same]
  | except excluded fallback excluded_ih ih =>
    simp only [relocate, excluded_ih fun entry member => same entry (List.mem_append_left _ member),
      ih fun entry member => same entry (List.mem_append_right _ member)]
  | compound head elements head_ih ih =>
    simp only [relocate, head_ih fun entry member => same entry (List.mem_append_left _ member),
      ofAll ih fun entry member => same entry (List.mem_append_right _ member)]
  | options cell defaults =>
    exact congrArg (Pattern.options · defaults) (same (cell, defaults) (by simp [optionPatterns]))
  | wildcard | verbatim | literal => simp only [relocate]

theorem relocate_id (p : Pattern) : p.relocate id = p := by
  have ofAll {ps : List Pattern} (each : ∀ p ∈ ps, p.relocate id = p) : relocateAll id ps = ps := by
    rw [relocateAll_eq_map, List.map_congr_left each, List.map_id']
  induction p using Pattern.induct with
  | named _ _ ih | optional _ _ ih | hold _ ih | test _ _ ih | condition _ _ ih | repeated _ _ _ ih =>
    simp only [relocate, ih]
  | alternatives choices ih => simp only [relocate, ofAll ih]
  | except _ _ excluded_ih ih => simp only [relocate, excluded_ih, ih]
  | compound _ _ head_ih ih => simp only [relocate, head_ih, ofAll ih]
  | options | wildcard | verbatim | literal => simp only [relocate, id]

theorem relocate_eq_self {p : Pattern} (same : ∀ entry ∈ p.optionPatterns, f entry.1 = entry.1) :
    p.relocate f = p :=
  (relocate_congr same).trans (relocate_id p)

theorem relocate_relocate (f g : Position → Position) (p : Pattern) :
    (p.relocate g).relocate f = p.relocate (f ∘ g) := by
  have ofAll {ps : List Pattern} (each : ∀ p ∈ ps, (p.relocate g).relocate f = p.relocate (f ∘ g)) :
      relocateAll f (relocateAll g ps) = relocateAll (f ∘ g) ps := by
    rw [relocateAll_eq_map, relocateAll_eq_map, relocateAll_eq_map, List.map_map]
    exact List.map_congr_left each
  induction p using Pattern.induct with
  | named _ _ ih | optional _ _ ih | hold _ ih | test _ _ ih | condition _ _ ih | repeated _ _ _ ih =>
    simp only [relocate, ih]
  | alternatives choices ih => simp only [relocate, ofAll ih]
  | except _ _ excluded_ih ih => simp only [relocate, excluded_ih, ih]
  | compound _ _ head_ih ih => simp only [relocate, head_ih, ofAll ih]
  | options | wildcard | verbatim | literal => rfl

theorem optionPatterns_relocate (p : Pattern) :
    (p.relocate f).optionPatterns = p.optionPatterns.map fun entry => (f entry.1, entry.2) := by
  have ofAll {ps : List Pattern} (each : ∀ p ∈ ps, (p.relocate f).optionPatterns =
      p.optionPatterns.map fun entry => (f entry.1, entry.2)) :
      optionPatternsOfAll (relocateAll f ps) = (optionPatternsOfAll ps).map fun entry => (f entry.1, entry.2) := by
    induction ps with
    | nil => rfl
    | cons p ps ih =>
      rw [relocateAll, optionPatternsOfAll, each p (by simp), ih fun q member => each q (by simp [member]),
        optionPatternsOfAll, List.map_append]
  induction p using Pattern.induct with
  | named _ _ ih | optional _ _ ih | hold _ ih | test _ _ ih | condition _ _ ih | repeated _ _ _ ih => exact ih
  | alternatives choices ih => exact ofAll ih
  | except _ _ excluded_ih ih => simp only [relocate, optionPatterns, excluded_ih, ih, List.map_append]
  | compound _ _ head_ih ih => simp only [relocate, optionPatterns, head_ih, ofAll ih, List.map_append]
  | options | wildcard | verbatim | literal => rfl

@[simp] theorem width_relocate (p : Pattern) : (p.relocate f).width = p.width := by
  have ofAny {ps : List Pattern} (each : ∀ p ∈ ps, (p.relocate f).width = p.width) :
      widthOfAny (relocateAll f ps) = widthOfAny ps := by
    induction ps with
    | nil => rfl
    | cons p ps ih =>
      have later := ih fun q member => each q (by simp [member])
      cases ps with
      | nil => exact each p (by simp)
      | cons q ps => exact congrArg₂ Width.join (each p (by simp)) later
  induction p using Pattern.induct with
  | named _ _ ih | hold _ ih | test _ _ ih | condition _ _ ih => exact ih
  | alternatives choices ih => exact ofAny ih
  | _ => simp only [relocate, width]

@[simp] theorem isWildcard_relocate (p : Pattern) : (p.relocate f).isWildcard = p.isWildcard := by
  cases p <;> simp only [relocate, isWildcard]

@[simp] theorem rank_relocate (p : Pattern) : (p.relocate f).rank = p.rank := by
  unfold rank
  rw [width_relocate]
  cases p <;> rfl

@[simp] theorem optionalDefault?_relocate (p : Pattern) :
    (p.relocate f).optionalDefault? = p.optionalDefault? := by
  induction p using Pattern.induct with
  | named _ _ ih => exact ih
  | _ => simp only [relocate, optionalDefault?]

@[simp] theorem isOptional_relocate (p : Pattern) : (p.relocate f).isOptional = p.isOptional := by
  rw [isOptional, isOptional, optionalDefault?_relocate]

@[simp] theorem mayMatch_relocate (p : Pattern) (t : Term) : (p.relocate f).mayMatch t = p.mayMatch t := by
  induction p using Pattern.induct with
  | named _ _ ih | hold _ ih | test _ _ ih | condition _ _ ih => exact ih
  | wildcard _ head => cases head <;> simp only [relocate]
  | _ => simp only [relocate, mayMatch]

@[simp] theorem literal?_relocate (p : Pattern) : (p.relocate f).literal? = p.literal? := by
  cases p <;> simp only [relocate, literal?]

theorem compileArgs_append {ts : List Term} {d : Position}
    (each : ∀ t ∈ ts, ∀ c, compileAt (c ++ d) t = (compileAt c t).map (relocate (· ++ d)))
    (c : Position) (number : Nat) :
    compileArgs (c ++ d) number ts = (compileArgs c number ts).map (relocateAll (· ++ d)) := by
  induction ts generalizing number with
  | nil => rfl
  | cons t ts ih =>
    have first := each t (by simp) (number :: c)
    rw [List.cons_append] at first
    rw [compileArgs, compileArgs, first, ih fun u member => each u (by simp [member])]
    cases compileAt (number :: c) t with
    | error e => rfl
    | ok p => cases compileArgs c (number + 1) ts <;> rfl

theorem compileAt_append (c d : Position) (t : Term) :
    compileAt (c ++ d) t = (compileAt c t).map (relocate (· ++ d)) := by
  induction t using Term.induct generalizing c with
  | app head args head_ih ih =>
    have part (k : Nat) {u : Term} (member : u ∈ args) :
        compileAt (k :: (c ++ d)) u = (compileAt (k :: c) u).map (relocate (· ++ d)) := ih u member (k :: c)
    have headPart : compileAt (0 :: (c ++ d)) head = (compileAt (0 :: c) head).map (relocate (· ++ d)) :=
      head_ih (0 :: c)
    have parts : compileArgs (c ++ d) 1 args = (compileArgs c 1 args).map (relocateAll (· ++ d)) :=
      compileArgs_append (fun t member c => ih t member c) c 1
    unfold compileAt
    split
    · rw [parts, headPart]
      cases compileArgs c 1 _ with
      | error => rfl
      | ok elements => cases compileAt (0 :: c) head <;> rfl
    · rfl
    · rfl
    · next name inner _ =>
      cases name.symbol? with
      | none => rfl
      | some name =>
        simp only [part 2 (List.mem_cons_of_mem _ (List.mem_singleton_self inner))]
        cases compileAt (2 :: c) inner <;> rfl
    · next inner _ =>
      rw [part 1 List.mem_cons_self]
      cases compileAt (1 :: c) inner <;> rfl
    · next inner _ _ =>
      rw [part 1 List.mem_cons_self]
      cases compileAt (1 :: c) inner <;> rfl
    · rw [parts]
      cases compileArgs c 1 _ <;> rfl
    · next excluded _ =>
      rw [part 1 List.mem_cons_self]
      cases compileAt (1 :: c) excluded <;> rfl
    · next excluded fallback _ =>
      rw [part 1 List.mem_cons_self, part 2 (List.mem_cons_of_mem _ (List.mem_singleton_self fallback))]
      cases compileAt (2 :: c) fallback with
      | error => rfl
      | ok fallback => cases compileAt (1 :: c) excluded <;> rfl
    · rfl
    · rfl
    · next inner _ =>
      rw [part 1 List.mem_cons_self]
      cases compileAt (1 :: c) inner <;> rfl
    · next inner _ _ =>
      rw [part 1 List.mem_cons_self]
      cases compileAt (1 :: c) inner <;> rfl
    · next inner _ _ =>
      rw [part 1 List.mem_cons_self]
      cases compileAt (1 :: c) inner <;> rfl
    · next inner _ =>
      rw [part 1 List.mem_cons_self]
      cases compileAt (1 :: c) inner <;> rfl
    · next orNone inner range _ =>
      cases range? (leastRepetitions orNone) range with
      | none => rfl
      | some w =>
        simp only [part 1 List.mem_cons_self]
        cases compileAt (1 :: c) inner <;> rfl
    · rfl
    · rfl
    · rfl
  | _ => rfl

variable {t : Term} {p : Pattern} {cell : Position}

theorem compileAt_of_compile (h : compile t = .ok p) (cell : Position) :
    compileAt cell t = .ok (p.relocate (· ++ cell)) := by
  have elsewhere := compileAt_append [] cell t
  rwa [List.nil_append, show compileAt [] t = .ok p from h] at elsewhere

theorem exists_compile (h : compileAt cell t = .ok p) : ∃ q, compile t = .ok q ∧ p = q.relocate (· ++ cell) := by
  obtain ⟨q, top⟩ := exists_compileAt h []
  exact ⟨q, top, Except.ok.inj (h.symm.trans (compileAt_of_compile top cell))⟩

/-- The cells of a pattern are below the position that it was read at. -/
theorem suffix_of_compileAt (h : compileAt cell t = .ok p) : ∀ entry ∈ p.optionPatterns, cell <:+ entry.1 := by
  obtain ⟨q, -, rfl⟩ := exists_compile h
  rw [optionPatterns_relocate]
  intro entry member
  obtain ⟨inner, -, rfl⟩ := List.mem_map.mp member
  exact List.suffix_append ..

end TermRewriting.Pattern
