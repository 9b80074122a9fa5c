import Mathlib.Data.List.Perm.Subperm
import TermRewriting.Proofs.Matching.Distribution

/-! What a visitor of matches is handed beside the bindings. What a match leaves alone are distinct
positions of arguments of the term that is matched, and nothing if the match is to be a whole one; a
visitor need say what it does with no others. -/

namespace TermRewriting

variable {κ : Type}

theorem Visit.each_congr {α : Type} {as : List α} {k k' : α → Visit κ} (h : ∀ a ∈ as, k a = k' a) :
    Visit.each as k = Visit.each as k' := by
  induction as with
  | nil => rfl
  | cons a as ih => simp only [each_cons, h a (by simp), ih fun b member => h b (by simp [member])]

/-- Candidates that are left, each at most once, and none where everything has to be matched. -/
structure Rest.Among (r : Rest) (whole : Bool) (candidates : List Nat) : Prop where
  nothing : whole = true → r = {}
  within : (r.before ++ r.after).Subperm candidates

theorem Rest.among_nothing (whole : Bool) (candidates : List Nat) : Rest.Among {} whole candidates :=
  ⟨fun _ => rfl, (List.nil_sublist candidates).subperm⟩

/-- The two do the same with what a match of the term can leave alone. -/
def AgreeAmong (whole : Bool) (t : Term) (k k' : MatchVisitor κ) : Prop :=
  ∀ b r, r.Among whole (List.range t.args.length) → k b r = k' b r

theorem AgreeAmong.nothing_left {whole : Bool} {t : Term} {k k' : MatchVisitor κ}
    (agree : AgreeAmong whole t k k') (b : Bindings) : k b {} = k' b {} := agree b {} (Rest.among_nothing ..)

/-- Where a match is a whole one, it does not matter which term it is of. -/
theorem AgreeAmong.of_whole {whole : Bool} {t : Term} {k k' : MatchVisitor κ}
    (agree : AgreeAmong whole t k k') (u : Term) : AgreeAmong true u k k' := by
  intro b r among
  rw [among.nothing rfl]
  exact agree.nothing_left b

namespace Siblings

variable {s : Siblings} {p : Pattern} {first last : Bool} {candidates : List Nat} {b : Bindings}

theorem closed_splitsAt (s : Siblings) (p : Pattern) (first last : Bool) (candidates : List Nat)
    (b : Bindings) : (s.splitsAt p first last candidates b).Closed := by
  refine Search.closed_iff_asksOnly.mpr ?_
  unfold splitsAt
  refine Search.asksOnly_ite (fun _ => Search.asksOnly_done) fun _ =>
    Search.asksOnly_ite (fun _ => Search.asksOnly_runs ..) fun _ => ?_
  cases boundTo? b p with
  | none => exact Search.asksOnly_subsets ..
  | some value => exact Search.asksOnly_ofOption _

/-- A choice distributes the candidates among those it takes and those on either side. -/
theorem all_splitsAt_perm (s : Siblings) (p : Pattern) (first last : Bool) (candidates : List Nat)
    (b : Bindings) :
    Search.All (fun split => (split.before ++ split.chosen ++ split.after).Perm candidates)
      (s.splitsAt p first last candidates b) := by
  refine Search.all_of_closed (closed_splitsAt ..) fun split found => ?_
  unfold splitsAt at found
  dsimp only at found
  split at found
  · cases found
  split at found
  · exact .of_eq (Search.append_of_mem_runs found)
  cases bound : boundTo? b p with
  | none =>
    simp only [bound, Search.mem_subsets] at found
    obtain ⟨size, chosen, rest, -, found, rfl⟩ := found
    exact (Search.perm_of_mem_choose found).1
  | some value =>
    simp only [bound, Search.values_ofOption, Option.mem_toList] at found
    rw [before_of_take? found]
    exact (perm_of_take? found).1

theorem subperm_of_choice {chosen before after : List Nat}
    (perm : (before ++ chosen ++ after).Perm candidates) : (before ++ after).Subperm candidates :=
  List.Subperm.trans (((List.sublist_append_left ..).append (.refl _)).subperm) perm.subperm

/-- What is done with a choice counts only for choices from the candidates. -/
theorem visitChoices_congr {k k' : (chosen before after : List Nat) → Visit κ}
    (h : ∀ chosen before after, (before ++ chosen ++ after).Perm candidates →
      (s.whole = true → before = []) → k chosen before after = k' chosen before after) :
    s.visitChoices p first last candidates b k = s.visitChoices p first last candidates b k' := by
  rw [visitChoices_eq, visitChoices_eq]
  refine Search.visit_congr ?_
  have perm := all_splitsAt_perm s p first last candidates b
  have before := all_splitsAt_before s p first last candidates b
  exact (perm.and before).imp fun split ⟨perm, before⟩ => h _ _ _ perm before

theorem visitElement_congr {e : Element (VisitMatches κ)} {later : List (Element (VisitMatches κ))}
    {k k' : MatchVisitor κ} (agree : ∀ b r, r.Among s.whole candidates → k b r = k' b r) :
    s.visitElement first e later candidates b k = s.visitElement first e later candidates b k' := by
  induction later generalizing first e candidates b k k' with
  | nil =>
    rw [visitElement, visitElement]
    refine visitChoices_congr fun chosen before after perm _ => ?_
    refine congrArg (s.visitPresentations e.pattern chosen) (funext fun t => ?_)
    refine congrArg (e.matcher _ t b) (funext fun b => funext fun _ => ?_)
    by_cases left : (!s.whole || (before.isEmpty && after.isEmpty)) = true
    · simp only [if_pos left]
      refine agree b _ ⟨fun whole => ?_, ?_⟩
      · simp only [whole, Bool.not_true, Bool.false_or, Bool.and_eq_true, List.isEmpty_iff] at left
        rw [left.1, left.2]
      · exact subperm_of_choice perm
    · simp only [if_neg left]
  | cons next later ih =>
    rw [visitElement, visitElement]
    refine visitChoices_congr fun chosen before after perm nothing => ?_
    refine congrArg (s.visitPresentations e.pattern chosen) (funext fun t => ?_)
    refine congrArg (e.matcher _ t b) (funext fun b => funext fun _ => ?_)
    refine ih fun b r among => agree b _ ⟨fun whole => ?_, ?_⟩
    · rw [nothing whole, among.nothing whole]
    · have inAfter : r.after.Subperm after :=
        (List.sublist_append_right r.before r.after).subperm.trans among.within
      exact ((List.subperm_append_left before).mpr inAfter).trans (subperm_of_choice perm)

theorem visitAll_congr {elements : List (Element (VisitMatches κ))} {k k' : MatchVisitor κ}
    (agree : AgreeAmong s.whole (.app s.head s.args) k k') :
    s.visitAll elements b k = s.visitAll elements b k' := by
  unfold visitAll
  split
  · rw [agree.nothing_left]
  · exact visitElement_congr agree

end Siblings

namespace Pattern

variable {ev : Evaluator} {t : Term} {b : Bindings} {k k' : MatchVisitor κ}

theorem visitApplication_congr {visitHead : VisitMatches κ} {elements : List (Element (VisitMatches κ))}
    {attributes : Attributes} {whole : Bool} (agree : AgreeAmong whole t k k') :
    visitApplication visitHead elements attributes whole t b k =
      visitApplication visitHead elements attributes whole t b k' := by
  cases t with
  | app head args =>
    simp only [visitApplication]
    congr 1
    refine congrArg (visitHead {} head b) (funext fun b => funext fun _ => ?_)
    refine Siblings.visitAll_congr fun b r among => agree b r ⟨fun isWhole => ?_, among.within⟩
    exact among.nothing (by simp [isWhole])
  | _ => rfl

theorem visitAny_congr {ps : List Pattern} {c : Context}
    (each : ∀ p ∈ ps, p.visit ev c t b k = p.visit ev c t b k') :
    visitAny ev ps c t b k = visitAny ev ps c t b k' := by
  induction ps with
  | nil => rfl
  | cons p ps ih =>
    rw [visitAny, visitAny, each p (by simp), ih fun q member => each q (by simp [member])]

/-- What a visitor does with a match counts only for what can be left alone of the term: each position
at most once, each that of an argument, and none in a whole match. -/
theorem visit_congr {p : Pattern} {c : Context} (agree : AgreeAmong c.whole t k k') :
    p.visit ev c t b k = p.visit ev c t b k' := by
  induction p using Pattern.induct generalizing c t b k k' with
  | wildcard span head => cases span <;> simp only [visit, agree.nothing_left]
  | named name inner ih =>
    simp only [visit]
    refine congrArg (visitValue ev inner c.place t) (funext fun value => ?_)
    cases b.get? name with
    | none => exact ih agree
    | some bound => simp only [ih agree]
  | optional inner inline ih =>
    have inner (value : Term) : inner.visit ev {} value b k = inner.visit ev {} value b k' :=
      ih (agree.of_whole value)
    simp only [visit, inner]
  | alternatives choices ih => exact visitAny_congr fun p member => ih p member agree
  | except excluded fallback _ ih => simp only [visit, ih agree]
  | hold inner ih => exact ih agree
  | condition inner guard ih =>
    simp only [visit]
    exact ih fun b r among => by rw [agree b r among]
  | verbatim | literal | test | repeated | options => simp only [visit, agree.nothing_left]
  | compound head elements _ ih =>
    simp only [visit, visitCompound, visitApplication_congr agree, visitLone, agree.nothing_left]

end Pattern

end TermRewriting
