import TermRewriting.Proofs.Matching.Simple
import TermRewriting.Proofs.Schema.Basic

/-! A run fits the pattern of a schema if and only if it is what filling in the schema yields and
the values are admitted by all wildcards. Matching a schema and substituting in it are inverse to
each other in this sense. -/

namespace TermRewriting

namespace Bindings

/-- Neither these symbols nor any options have values. -/
structure LeavesAlone (b : Bindings) (symbols : List String) : Prop where
  literal : ∀ x ∈ symbols, b.get? x = none
  option : ∀ x, b.option? x = none

theorem LeavesAlone.mono {b : Bindings} {symbols symbols' : List String} (h : b.LeavesAlone symbols')
    (sub : symbols ⊆ symbols') : b.LeavesAlone symbols :=
  ⟨fun x member => h.literal x (sub member), h.option⟩

end Bindings

namespace Term

variable {b : Bindings}

theorem optionValue?_eq_none (h : ∀ x, b.option? x = none) (head : Term) (args : List Term) :
    optionValue? b head args = none := by
  unfold optionValue?
  split
  · split
    · next arg _ => cases name : arg.optionName? <;> simp [h]
    · rfl
  · rfl

theorem substitute_app (h : ∀ x, b.option? x = none) (head : Term) (args : List Term) :
    substitute b (.app head args) = .app (substitute b head) (substituteArgs b args) := by
  simp [substitute, optionValue?_eq_none h]

theorem substituteArgs_cons (t : Term) (ts : List Term) :
    substituteArgs b (t :: ts) = substituteArgs b [t] ++ substituteArgs b ts := by
  cases t <;> simp [substituteArgs]

theorem substitute_atom {t : Term} (isAtom : t.isAtom = true)
    (literal : ∀ x ∈ t.symbol?.toList, b.get? x = none) :
    substitute b t = t ∧ substituteArgs b [t] = [t] := by
  cases t with
  | symbol x => simp [substitute, substituteArgs, literal x (by simp [symbol?])]
  | app => cases isAtom
  | _ => exact ⟨rfl, rfl⟩

end Term

namespace Schema

open Pattern

variable {b : Bindings} {test : Term → Term → Bool}

theorem namesOfAll_toPatterns {ss : List Schema} (each : ∀ s ∈ ss, s.toPattern.names = s.names) :
    namesOfAll (toPatterns ss) = (wildcardsOfAll ss).map (·.name) := by
  induction ss with
  | nil => rfl
  | cons s ss ih =>
    simp [toPatterns, namesOfAll, wildcardsOfAll, each s (by simp), names,
      ih fun s member => each s (by simp [member])]

theorem names_toPattern (s : Schema) : s.toPattern.names = s.names := by
  induction s using Schema.induct with
  | atom t isAtom => rfl
  | wildcard w => rfl
  | app head args head_ih ih =>
    simp only [toPattern, Pattern.names, head_ih, namesOfAll_toPatterns ih, names, wildcards,
      List.map_append]

theorem explicit_toPattern (s : Schema) : s.toPattern.Explicit := by
  induction s using Schema.induct with
  | atom t isAtom => exact .literal t
  | wildcard w => exact .named w.name (.wildcard w.span w.head)
  | app head args head_ih ih =>
    refine .compound head_ih fun p member => ?_
    obtain ⟨s, inArgs, rfl⟩ := mem_toPatterns.mp member
    exact ih s inArgs

theorem toTerm_eq_symbol {s : Schema} {name : String} (h : s.toPattern.symbol? = some name) :
    s.toTerm = .symbol name := by
  cases s with
  | atom t isAtom => cases t <;> cases h; rfl
  | _ => cases h

/-- Where no head has attributes, the pattern of a plain schema is simple. -/
theorem simple_toPattern {ev : Evaluator} (bare : ∀ name, ev.attributes name = {}) {s : Schema}
    (plain : s.toTerm.isPlain = true) : s.toPattern.Simple ev := by
  induction s using Schema.induct with
  | atom t isAtom => exact .literal plain
  | wildcard w => exact .named _ (.wildcard ..)
  | app head args head_ih ih =>
    obtain ⟨notSequence, plainHead, plainArgs⟩ := Term.isPlain_app.mp plain
    refine .compound ?_ (fun symbol => ?_) (head_ih plainHead) fun p member => ?_
    · unfold Pattern.attributes
      cases head.toPattern.symbol? <;> simp [bare]
    · rw [toTerm_eq_symbol symbol] at notSequence
      exact absurd notSequence (by decide)
    · obtain ⟨s, inArgs, rfl⟩ := mem_toPatterns.mp member
      exact ih s inArgs (plainArgs _ (mem_toTerms.mpr ⟨s, inArgs, rfl⟩))

theorem NamesApart.leavesAlone {s : Schema} (apart : s.NamesApart)
    (domain : ∀ x, (b.get? x).isSome → x ∈ s.names) : b.LeavesAlone s.symbols where
  literal x member := by
    rw [← Option.not_isSome_iff_eq_none]
    exact fun bound => apart.literal x (domain x bound) member
  option x := by
    rw [Bindings.option?, ← Option.not_isSome_iff_eq_none]
    intro bound
    have marked := Bindings.optionOf?_optionMark_append x
    rw [apart.option _ (domain _ bound)] at marked
    cases marked

/-- An admitted value in the place of an argument yields one term only if it is that term. -/
theorem substituteArgs_eq_singleton {s : Schema} (alone : b.LeavesAlone s.symbols)
    (admitted : ∀ w ∈ s.wildcards, w.AdmittedBy b.get?) {t : Term} (apart : t.isSequence = false) :
    Term.substituteArgs b [s.skeleton] = [t] ↔ s.skeleton.substitute b = t := by
  cases s with
  | atom u isAtom =>
    obtain ⟨whole, argument⟩ := Term.substitute_atom isAtom alone.literal
    simp only [skeleton, whole, argument, List.singleton_inj]
  | wildcard w =>
    obtain ⟨run, value, -, each⟩ := admitted w (by simp [wildcards])
    have items := Term.items_ofRun fun t member => (each t member).1
    simpa [skeleton, Term.substituteArgs, Term.substitute, value, items] using
      (Term.ofRun_eq_iff apart).symm
  | app head args => simp [skeleton, Term.substituteArgs]

theorem fitsRow_iff {ss : List Schema}
    (each : ∀ s ∈ ss, ∀ run, (∀ t ∈ run, t.isPlain = true) → (Fits test b.get? s.toPattern run ↔
      (∀ w ∈ s.wildcards, w.AdmittedBy b.get?) ∧ Term.substituteArgs b [s.skeleton] = run))
    {row : List Term} (plain : ∀ t ∈ row, t.isPlain = true) :
    FitsRow test b.get? (toPatterns ss) row ↔
      (∀ w ∈ wildcardsOfAll ss, w.AdmittedBy b.get?) ∧
        Term.substituteArgs b (skeletons ss) = row := by
  induction ss generalizing row with
  | nil => simp [toPatterns, FitsRow, wildcardsOfAll, skeletons, Term.substituteArgs, eq_comm]
  | cons s ss ih =>
    have later := @ih fun s member => each s (by simp [member])
    simp only [toPatterns, FitsRow, wildcardsOfAll, skeletons, List.mem_append]
    rw [Term.substituteArgs_cons]
    constructor
    · rintro ⟨run, rest, rfl, fits, fitsRow⟩
      have plainRun (t : Term) (member : t ∈ run) := plain t (List.mem_append_left _ member)
      have plainRest (t : Term) (member : t ∈ rest) := plain t (List.mem_append_right _ member)
      obtain ⟨admitted, rfl⟩ := (each s (by simp) run plainRun).mp fits
      obtain ⟨admittedLater, rfl⟩ := (later plainRest).mp fitsRow
      refine ⟨fun w member => ?_, rfl⟩
      rcases member with here | there
      · exact admitted w here
      · exact admittedLater w there
    · rintro ⟨admitted, rfl⟩
      refine ⟨_, _, rfl, ?_, ?_⟩
      · refine (each s (by simp) _ fun t member => plain t (List.mem_append_left _ member)).mpr ?_
        exact ⟨fun w member => admitted w (.inl member), rfl⟩
      · refine (later fun t member => plain t (List.mem_append_right _ member)).mpr ?_
        exact ⟨fun w member => admitted w (.inr member), rfl⟩

theorem fits_iff {s : Schema} (alone : b.LeavesAlone s.symbols) {run : List Term}
    (plain : ∀ t ∈ run, t.isPlain = true) :
    Fits test b.get? s.toPattern run ↔
      (∀ w ∈ s.wildcards, w.AdmittedBy b.get?) ∧ Term.substituteArgs b [s.skeleton] = run := by
  induction s using Schema.induct generalizing run with
  | atom t isAtom =>
    rw [skeleton, (Term.substitute_atom isAtom alone.literal).2]
    simp [toPattern, Fits, wildcards, eq_comm]
  | wildcard w =>
    have apart (t : Term) (member : t ∈ run) : t.isSequence = false :=
      Term.isSequence_of_isPlain (plain t member)
    simp only [toPattern, Fits, wildcards, List.mem_singleton, forall_eq, skeleton]
    constructor
    · rintro ⟨value, admits, headed⟩
      refine ⟨⟨run, value, admits, fun t member => ⟨apart t member, headed t member⟩⟩, ?_⟩
      simp [Term.substituteArgs, value, Term.items_ofRun apart]
    · rintro ⟨⟨run', value, admits, each⟩, filled⟩
      have items := Term.items_ofRun fun t member => (each t member).1
      obtain rfl : run' = run := by simpa [Term.substituteArgs, value, items] using filled
      exact ⟨value, admits, fun t member => (each t member).2⟩
  | app head args head_ih ih =>
    have aloneHead : b.LeavesAlone head.symbols := alone.mono (List.subset_append_left ..)
    have aloneArgs (s : Schema) (member : s ∈ args) : b.LeavesAlone s.symbols :=
      alone.mono fun x inSchema =>
        List.mem_append_right _ (mem_symbolsOfAll.mpr ⟨s, member, inSchema⟩)
    have row {args' : List Term} :=
      @fitsRow_iff b test args (fun s member _ plain => ih s member (aloneArgs s member) plain) args'
    have filled : Term.substituteArgs b [(app head args).skeleton] =
        [.app (head.skeleton.substitute b) (Term.substituteArgs b (skeletons args))] := by
      simp only [skeleton, Term.substituteArgs, Term.substitute_app alone.option]
    rw [filled]
    simp only [toPattern, Fits, wildcards, List.mem_append]
    constructor
    · rintro ⟨h, args', rfl, fits, fitsRow⟩
      obtain ⟨-, plainHead, plainArgs⟩ := Term.isPlain_app.mp (plain _ List.mem_cons_self)
      obtain ⟨admitted, eq⟩ := (head_ih aloneHead (by simpa using plainHead)).mp fits
      obtain ⟨admittedArgs, rfl⟩ := (row plainArgs).mp fitsRow
      obtain rfl :=
        (substituteArgs_eq_singleton aloneHead admitted (Term.isSequence_of_isPlain plainHead)).mp eq
      refine ⟨fun w member => ?_, rfl⟩
      rcases member with inHead | inArgs
      · exact admitted w inHead
      · exact admittedArgs w inArgs
    · rintro ⟨admitted, rfl⟩
      obtain ⟨-, plainHead, plainArgs⟩ := Term.isPlain_app.mp (plain _ List.mem_cons_self)
      have admittedHead (w : Wildcard) (member : w ∈ head.wildcards) := admitted w (.inl member)
      refine ⟨_, _, rfl, ?_, (row plainArgs).mpr ⟨fun w member => admitted w (.inr member), rfl⟩⟩
      refine (head_ih aloneHead (by simpa using plainHead)).mpr ⟨admittedHead, ?_⟩
      exact (substituteArgs_eq_singleton aloneHead admittedHead (Term.isSequence_of_isPlain plainHead)).mpr rfl

end Schema

end TermRewriting
