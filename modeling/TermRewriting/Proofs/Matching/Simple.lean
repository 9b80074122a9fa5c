import TermRewriting.Proofs.Matching.Row

/-! The matches of simple patterns. Every match found fits the pattern under its own bindings, and
whenever the pattern fits under some assignment, a match is found that agrees with it. -/

namespace TermRewriting

namespace Pattern

variable {ev : Evaluator} {head : Pattern} {elements : List Pattern}

/-- What there is to search if the head is neither flat nor stands for its argument. -/
theorem values_compound (flat : (head.attributes ev).flat = false)
    (oneIdentity : (head.attributes ev).oneIdentity = false) (c : Context) {h : Term}
    {args : List Term} (plain : (Term.app h args).isPlain = true) (b : Bindings) :
    (search ev (.compound head elements) c (.app h args) b).values =
      if (totalWidth elements).admits args.length then
        (search ev head {} h b).values.flatMap fun m =>
          (Siblings.matchAll ⟨h, args, head.attributes ev, elements.length, true⟩
            (elementsFrom ev 1 elements) m.bindings).values
      else [] := by
  have apart : (Term.app h args).isSequence = false := Term.isSequence_of_isPlain plain
  simp [search, matchCompound, matchApplication, apart, flat, oneIdentity, map_pattern_elementsFrom,
    length_elementsFrom, Search.values_ite]

theorem app_of_mem_compound (notSequence : head.symbol? ≠ some "Sequence")
    (oneIdentity : (head.attributes ev).oneIdentity = false) {c : Context} {run : List Term}
    {b : Bindings} {m : Match}
    (found : m ∈ (search ev (.compound head elements) c (.ofRun run) b).values) :
    ∃ h args, run = [.app h args] := by
  rw [search] at found
  by_cases alone : run.length = 1
  · obtain ⟨t, rfl⟩ := List.length_eq_one_iff.mp alone
    cases t with
    | app h args => exact ⟨h, args, rfl⟩
    | _ => simp [matchCompound, matchApplication, oneIdentity, Search.values_ite] at found
  · simp [matchCompound, Term.ofRun_of_length_ne_one alone, notSequence] at found

theorem sound_compound (notSequence : head.symbol? ≠ some "Sequence")
    (flat : (head.attributes ev).flat = false)
    (oneIdentity : (head.attributes ev).oneIdentity = false) (headSound : head.Sound ev (search ev head))
    (sound : ∀ p ∈ elements, p.Sound ev (search ev p)) {c : Context} (run : List Term) {b : Bindings}
    {m : Match} (plain : ∀ t ∈ run, t.isPlain = true) (exact : b.IsExact)
    (found : m ∈ (search ev (.compound head elements) c (.ofRun run) b).values) :
    b.Grows (head.names ++ namesOfAll elements) m.bindings ∧
      ∃ h args row, run = [.app h args] ∧ Fits (testHolds ev) m.bindings.get? head [h] ∧
        Rearranged (head.attributes ev).orderless row args ∧
        FitsRow (testHolds ev) m.bindings.get? elements row := by
  obtain ⟨h, args, rfl⟩ := app_of_mem_compound notSequence oneIdentity found
  have plainApp := plain _ List.mem_cons_self
  obtain ⟨-, plainHead, plainArgs⟩ := Term.isPlain_app.mp plainApp
  rw [Term.ofRun_singleton, values_compound flat oneIdentity c plainApp] at found
  split at found
  · obtain ⟨headMatch, headFound, found⟩ := List.mem_flatMap.mp found
    obtain ⟨grows, fits⟩ :=
      headSound {} [h] b headMatch (by simpa using plainHead) exact headFound
    obtain ⟨growsLater, row, order, fitsRow⟩ :=
      Siblings.sound_matchAll (by exact flat) rfl sound plainArgs (grows.exact exact) found
    exact ⟨grows.trans growsLater, h, args, row, rfl, fits.mono growsLater.kept, order, fitsRow⟩
  · simp at found

theorem complete_compound (flat : (head.attributes ev).flat = false)
    (oneIdentity : (head.attributes ev).oneIdentity = false)
    (headComplete : head.Complete ev (search ev head)) (simple : ∀ p ∈ elements, p.Simple ev)
    (complete : ∀ p ∈ elements, p.Complete ev (search ev p)) {c : Context} {h : Term}
    {args row : List Term} {b : Bindings} {σ : Assignment} (plain : (Term.app h args).isPlain = true)
    (agrees : b.Agrees σ) (fits : Fits (testHolds ev) σ head [h])
    (order : Rearranged (head.attributes ev).orderless row args)
    (fitsRow : FitsRow (testHolds ev) σ elements row) :
    ∃ m ∈ (search ev (.compound head elements) c (.app h args) b).values, m.bindings.Agrees σ := by
  obtain ⟨-, plainHead, plainArgs⟩ := Term.isPlain_app.mp plain
  obtain ⟨headMatch, headFound, agreesNow⟩ :=
    headComplete {} [h] b σ (by simpa using plainHead) agrees fits
  obtain ⟨m, found, agreesLater⟩ :=
    Siblings.complete_matchAll (s := ⟨h, args, head.attributes ev, elements.length, true⟩) flat simple
      complete plainArgs agreesNow order fitsRow
  have admits : (totalWidth elements).admits args.length = true := order.perm.length_eq ▸ fitsRow.admits
  rw [values_compound flat oneIdentity c plain, if_pos admits]
  exact ⟨m, List.mem_flatMap.mpr ⟨headMatch, headFound, found⟩, agreesLater⟩

theorem values_wildcard (span : Span) (head : Option Term) (c : Context) {run : List Term}
    (plain : ∀ t ∈ run, t.isPlain = true) (b : Bindings) :
    (search ev (.wildcard span head) c (.ofRun run) b).values =
      if span.width.admits run.length ∧ ∀ t ∈ run, headFits head t then [⟨b, {}⟩] else [] := by
  have items := Term.items_ofRun_of_isPlain plain
  cases span with
  | one =>
    by_cases alone : run.length = 1
    · obtain ⟨t, rfl⟩ := List.length_eq_one_iff.mp alone
      have apart : t.isSequence = false := Term.isSequence_of_isPlain (plain t (by simp))
      simp [search, Search.values_ite, apart, Span.width, Width.admits, Width.single]
    · have notOne : ¬ Width.single.admits run.length = true := by
        intro admits
        obtain ⟨least, most⟩ := Width.admits_iff.mp admits
        exact alone (Nat.le_antisymm (of_decide_eq_true most) least)
      simp [search, Term.ofRun_of_length_ne_one alone, Span.width, notOne]
  | many =>
    have nonempty : ((!run.isEmpty) = true) ↔ 1 ≤ run.length := by cases run <;> simp
    simp only [search, items, Search.values_ite, Span.width, Width.admits_iff, Bool.and_eq_true,
      nonempty, List.all_eq_true, Option.all_none, and_true, Search.values_one, Search.values_done]
  | any => simp [search, items, Search.values_ite, Span.width, Width.admits_iff]

theorem values_named {inner : Pattern} (required : inner.optionalDefault? = none) (name : String)
    (c : Context) (t : Term) (b : Bindings) :
    (search ev (.named name inner) c t b).values =
      match b.get? name with
      | some bound => if bound.same t then (search ev inner c t b).values else []
      | none => (search ev inner c t (b.bind name t)).values := by
  simp only [search, valueOf, required, Search.values_bind, Search.values_one, List.flatMap_singleton]
  cases b.get? name <;> simp [Search.values_ite]

theorem mem_searchAny {ps : List Pattern} {c : Context} {t : Term} {b : Bindings} {m : Match} :
    m ∈ (searchAny ev ps c t b).values ↔ ∃ p ∈ ps, m ∈ (search ev p c t b).values := by
  induction ps with
  | nil => simp [searchAny]
  | cons p ps ih => simp [searchAny, ih]

section

variable {inner : Pattern} {items : List Term} {b : Bindings}

def threaded (ev : Evaluator) (inner : Pattern) (items : List Term) (b : Bindings) : Search Bindings :=
  Search.thread (fun b item => (search ev inner {} item b).map (·.bindings)) items b

theorem sound_threaded (sound : inner.Sound ev (search ev inner)) {m : Bindings}
    (plain : ∀ t ∈ items, t.isPlain = true) (exact : b.IsExact)
    (h : m ∈ (threaded ev inner items b).values) :
    b.Grows inner.names m ∧ ∀ t ∈ items, Fits (testHolds ev) m.get? inner [t] := by
  induction items generalizing b with
  | nil =>
    obtain rfl := List.mem_singleton.mp h
    exact ⟨.refl .., by simp⟩
  | cons t items ih =>
    simp only [threaded, Search.values_thread_cons, Search.values_map, List.mem_flatMap,
      List.mem_map] at h
    obtain ⟨_, ⟨now, found, rfl⟩, later⟩ := h
    obtain ⟨grows, fits⟩ := sound {} [t] b now (by simpa using plain t (by simp)) exact found
    obtain ⟨growsLater, fitLater⟩ :=
      ih (fun u member => plain u (by simp [member])) (grows.exact exact) later
    refine ⟨(grows.trans growsLater).mono (by simp), fun u member => ?_⟩
    rcases List.mem_cons.mp member with rfl | member
    · exact fits.mono growsLater.kept
    · exact fitLater u member

theorem complete_threaded (complete : inner.Complete ev (search ev inner)) {σ : Assignment}
    (plain : ∀ t ∈ items, t.isPlain = true) (agrees : b.Agrees σ)
    (fits : ∀ t ∈ items, Fits (testHolds ev) σ inner [t]) :
    ∃ m ∈ (threaded ev inner items b).values, m.Agrees σ := by
  induction items generalizing b with
  | nil => exact ⟨b, by simp [threaded], agrees⟩
  | cons t items ih =>
    obtain ⟨now, found, agreesNow⟩ :=
      complete {} [t] b σ (by simpa using plain t (by simp)) agrees (fits t (by simp))
    obtain ⟨m, later, agreesLater⟩ :=
      ih (fun u member => plain u (by simp [member])) agreesNow fun u member => fits u (by simp [member])
    refine ⟨m, ?_, agreesLater⟩
    simp only [threaded, Search.values_thread_cons, Search.values_map, List.mem_flatMap, List.mem_map]
    exact ⟨_, ⟨now, found, rfl⟩, later⟩

end

theorem Simple.explicit {p : Pattern} (simple : p.Simple ev) : p.Explicit := by
  induction simple with
  | wildcard span head => exact .wildcard span head
  | named name _ ih => exact .named name ih
  | alternatives _ ih => exact .alternatives ih
  | hold _ ih => exact .hold ih
  | test predicate _ ih => exact .test predicate ih
  | repeated least most _ ih => exact .repeated least most ih
  | literal plain => exact .literal _
  | compound _ _ _ _ head_ih ih => exact .compound head_ih ih

theorem Simple.sound {p : Pattern} (simple : p.Simple ev) : p.Sound ev (search ev p) := by
  induction simple with
  | wildcard span head =>
    intro c run b m plain exact h
    rw [values_wildcard _ _ _ plain] at h
    split at h
    · next fits =>
      obtain rfl := List.mem_singleton.mp h
      exact ⟨.refl .., fits⟩
    · simp at h
  | @named inner name simple ih =>
    intro c run b m plain exact h
    have exactRun := Term.isExact_ofRun_of_isPlain plain
    rw [values_named simple.optionalDefault?] at h
    split at h
    · next bound value =>
      split at h
      · next same =>
        obtain rfl := (Term.same_iff_eq (exact _ _ value) exactRun).mp same
        obtain ⟨grows, fits⟩ := ih c run b m plain exact h
        exact ⟨grows.mono (List.subset_cons_self ..), grows.kept _ _ value, fits⟩
      · simp at h
    · next free =>
      have binds := Bindings.grows_bind free exactRun
      obtain ⟨grows, fits⟩ := ih c run _ m plain (binds.exact exact) h
      exact ⟨binds.trans grows, grows.kept _ _ (by simp [Bindings.get?_bind]), fits⟩
  | alternatives _ ih =>
    intro c run b m plain exact h
    obtain ⟨p, member, found⟩ := mem_searchAny.mp h
    obtain ⟨grows, fits⟩ := ih p member c run b m plain exact found
    exact ⟨grows.mono fun x named => mem_namesOfAll.mpr ⟨p, member, named⟩,
      fitsAny_iff.mpr ⟨p, member, fits⟩⟩
  | hold _ ih => exact fun c run b m plain exact h => ih c run b m plain exact h
  | test predicate _ ih =>
    intro c run b m plain exact h
    rw [search, Search.values_filter, List.mem_filter] at h
    obtain ⟨grows, fits⟩ := ih _ run b m plain exact h.1
    exact ⟨grows, fits, h.2⟩
  | repeated least most _ ih =>
    intro c run b m plain exact h
    have items := Term.items_ofRun_of_isPlain plain
    rw [search, items, Search.values_ite] at h
    split at h
    · next admits =>
      rw [Search.values_map] at h
      obtain ⟨now, found, rfl⟩ := List.mem_map.mp h
      obtain ⟨grows, fits⟩ := sound_threaded ih plain exact found
      exact ⟨grows, admits, fits⟩
    · simp at h
  | @literal v simple =>
    intro c run b m plain exact h
    have exactRun := Term.isExact_ofRun_of_isPlain plain
    rw [search, Search.values_ite] at h
    split at h
    · next same =>
      obtain rfl := List.mem_singleton.mp h
      have eq := (Term.same_iff_eq (Term.isExact_of_isPlain simple) exactRun).mp same
      exact ⟨.refl .., (Term.ofRun_eq_iff (Term.isSequence_of_isPlain simple)).mp eq.symm⟩
    · simp at h
  | compound attributes notSequence _ _ head_ih ih =>
    intro c run b m plain exact h
    obtain ⟨grows, h, args, row, eq, fits, order, fitsRow⟩ :=
      sound_compound notSequence (by rw [attributes]) (by rw [attributes]) head_ih ih run plain exact h
    rw [attributes] at order
    obtain rfl : row = args := order
    exact ⟨grows, h, row, eq, fits, fitsRow⟩

theorem Simple.complete {p : Pattern} (simple : p.Simple ev) : p.Complete ev (search ev p) := by
  induction simple with
  | wildcard span head =>
    intro c run b σ plain agrees fits
    rw [values_wildcard _ _ _ plain]
    rw [if_pos (by exact fits)]
    exact ⟨_, List.mem_singleton_self _, agrees⟩
  | @named inner name simple ih =>
    rintro c run b σ plain agrees ⟨value, fits⟩
    have exactRun := Term.isExact_ofRun_of_isPlain plain
    rw [values_named simple.optionalDefault?]
    cases bound : b.get? name with
    | some v =>
      obtain rfl := Option.some.inj ((agrees name v bound).symm.trans value)
      simp only [Term.same_self exactRun, if_true]
      exact ih c run b σ plain agrees fits
    | none => exact ih c run _ σ plain (agrees.bind value) fits
  | alternatives _ ih =>
    intro c run b σ plain agrees fits
    obtain ⟨p, member, fits⟩ := fitsAny_iff.mp fits
    obtain ⟨m, found, agreesLater⟩ := ih p member c run b σ plain agrees fits
    exact ⟨m, mem_searchAny.mpr ⟨p, member, found⟩, agreesLater⟩
  | hold _ ih => exact fun c run b σ plain agrees fits => ih c run b σ plain agrees fits
  | test predicate _ ih =>
    rintro c run b σ plain agrees ⟨fits, holds⟩
    obtain ⟨m, found, agreesLater⟩ := ih { c with whole := true } run b σ plain agrees fits
    rw [search, Search.values_filter]
    exact ⟨m, List.mem_filter.mpr ⟨found, holds⟩, agreesLater⟩
  | repeated least most _ ih =>
    rintro c run b σ plain agrees ⟨admits, fits⟩
    have items := Term.items_ofRun_of_isPlain plain
    obtain ⟨m, found, agreesLater⟩ := complete_threaded ih plain agrees fits
    rw [search, items, if_pos admits, Search.values_map]
    exact ⟨⟨m, {}⟩, List.mem_map.mpr ⟨m, found, rfl⟩, agreesLater⟩
  | @literal v simple =>
    intro c run b σ plain agrees fits
    obtain rfl : run = [v] := fits
    rw [search, Term.ofRun_singleton, if_pos (Term.same_self (Term.isExact_of_isPlain simple))]
    exact ⟨_, List.mem_singleton_self _, agrees⟩
  | compound attributes notSequence _ simple head_ih ih =>
    intro c run b σ plain agrees fits
    obtain ⟨h, args, rfl, fits, fitsRow⟩ := fits
    exact complete_compound (by rw [attributes]) (by rw [attributes]) head_ih simple ih
      (plain _ List.mem_cons_self) agrees fits (.refl ..) fitsRow

end Pattern

end TermRewriting
