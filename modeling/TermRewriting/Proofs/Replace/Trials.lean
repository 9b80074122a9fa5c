import TermRewriting.Proofs.Replace.Recording

/-! Which terms replacement at levels tries the rules on. Whether a part is meant is decided by its level
and by what has become of it by then, so that a bound that counts depth may depend on what the rules did
to the parts in it. -/

namespace TermRewriting

open Visited (resultAt)

namespace Term

variable {σ : Type} {rewrite : Path → Term → StateM σ (Option Term)}

theorem items_ne_nil {t : Term} (h : t.isEmptySequence = false) : t.items ≠ [] := by
  intro empty
  unfold items at empty
  split at empty
  · next sequence =>
    have arity : t.isCallWith "Sequence" 0 = true := by
      rw [isCallWith, empty]
      simpa [isSequence] using sequence
    simp [isEmptySequence, arity] at h
  · cases empty

theorem depth_eq_one_iff {t : Term} : t.depth = 1 ↔ t.args = [] := by
  have positive (t : Term) : 0 < t.depth := by
    cases t with
    | app head args => exact Nat.add_pos_left Nat.one_pos _
    | _ => exact Nat.one_pos
  cases t with
  | app head args =>
    cases args with
    | nil => simp [depth, depthAll, args]
    | cons t ts =>
      have := positive t
      simp [depth, depthAll, args]
      omega
  | _ => simp [depth, args]

/-- Nothing is new in a head, and nothing new is an empty sequence. -/
structure Fills (new : Path → Option Term) : Prop where
  inHead : ∀ path, 0 ∈ path → new path = none
  inPlace : ∀ path u, new path = some u → u.isEmptySequence = false

theorem Fills.child {new : Path → Option Term} (fills : Fills new) (n : Nat) :
    Fills fun path => new (n :: path) :=
  ⟨fun _ enters => fills.inHead _ (List.mem_cons_of_mem n enters), fun _ => fills.inPlace _⟩

theorem replacePartsFrom_ne_nil {new : Path → Option Term} {number : Nat} {t : Term} {ts : List Term}
    (first : touched (fun path => new (number :: path)) t = true →
      (replaceParts touched (fun path => new (number :: path)) t).isEmptySequence = false) :
    replacePartsFrom touched new number (t :: ts) ≠ [] := by
  simp only [replacePartsFrom]
  split
  · next replaced => exact fun empty => items_ne_nil (first replaced) (List.append_eq_nil_iff.mp empty).1
  · exact List.cons_ne_nil _ _

theorem isEmptySequence_replaceParts {new : Path → Option Term} (fills : Fills new) {t : Term}
    (replaced : touched new t = true) : (replaceParts touched new t).isEmptySequence = false := by
  induction t using Term.induct generalizing new with
  | app head args head_ih ih =>
    cases here : new [] with
    | some u => simpa [replaceParts, here] using fills.inPlace [] u here
    | none =>
      have inHead : touched (fun path => new (0 :: path)) head = false := by
        simp [touched, fills.inHead]
      cases args with
      | nil => simp [touched_app, inHead, here, touchedFrom, pathsFrom] at replaced
      | cons t ts =>
        have filled : replacePartsFrom touched new 1 (t :: ts) ≠ [] :=
          replacePartsFrom_ne_nil fun replaced => ih t (by simp) (fills.child 1) replaced
        simp [replaceParts, here, isEmptySequence, isCallWith, args, filled]
  | _ =>
    cases here : new [] with
    | some u => simpa [replaceParts, here] using fills.inPlace [] u here
    | none => simp [touched, paths, here] at replaced

theorem args_replaceParts {new : Path → Option Term} (fills : Fills new) (top : new [] = none) (t : Term) :
    (replaceParts touched new t).args = [] ↔ t.args = [] := by
  cases t with
  | app head args =>
    cases args with
    | nil => simp [replaceParts, replacePartsFrom, top, args]
    | cons t ts =>
      have filled : replacePartsFrom touched new 1 (t :: ts) ≠ [] :=
        replacePartsFrom_ne_nil fun replaced => isEmptySequence_replaceParts (fills.child 1) replaced
      simp [replaceParts, top, args, filled]
  | _ => simp [replaceParts, top]

theorem depth_visits {t : Term} {s : σ} {v : Visited} (member : v ∈ visits false rewrite t s)
    (filled : ∀ d ∈ visits false rewrite t s, ∀ u, d.result = some u → u.isEmptySequence = false) :
    ∃ u, t.part? v.path = some u ∧ (v.term.depth = 1 ↔ u.depth = 1) := by
  obtain ⟨u, part, term⟩ := term_visits t s v member
  have fills : Fills (inner fun path => resultAt (visits false rewrite t s) (v.path ++ path)) := by
    refine ⟨fun path enters => ?_, fun path r new => ?_⟩
    · refine Option.eq_none_iff_forall_not_mem.mpr fun r new => ?_
      obtain ⟨d, visited, same, -, -⟩ := exists_of_inner new
      have everyPart : (visits false rewrite t s).map Visited.path = t.paths false := path_visits t s
      have reached : d.path ∈ t.paths false := everyPart ▸ List.mem_map_of_mem visited
      simp [mem_paths, same, enters] at reached
    · obtain ⟨d, visited, -, -, result⟩ := exists_of_inner new
      exact filled d visited r result
  exact ⟨u, part, by rw [depth_eq_one_iff, depth_eq_one_iff, term, args_replaceParts fills rfl]⟩

end Term

/-- A test for what is meant that does not count depth gives all terms at a level the same answer. -/
theorem LevelSpec.admits_eq {s : LevelSpec} (counts : s.countsDepth = false) (level : Int) (t u : Term) :
    s.admits level t = s.admits level u := by
  obtain ⟨start, stop⟩ := s
  cases stop with
  | none =>
    have first : 0 ≤ start := by simpa [countsDepth] using counts
    simp [admits, first]
  | some stop =>
    have bounds : 0 ≤ start ∧ 0 ≤ stop := by simpa [countsDepth] using counts
    simp [admits, bounds]

theorem LevelSpec.admits_atoms (level : Int) (t : Term) :
    LevelSpec.admits ⟨-1, some (-1)⟩ level t = decide (t.depth = 1) := by
  rw [Bool.eq_iff_iff]
  simp only [admits, Int.reduceNeg, Int.neg_nonneg, Int.reduceLE, reduceIte, Int.neg_neg, Option.all_some,
    Bool.and_eq_true, decide_eq_true_eq]
  omega

def LevelSpec.selects (s : LevelSpec) (heads : Bool) (t : Term) : List Path :=
  (t.paths heads).filter fun path => (t.part? path).any (s.admits path.length)

namespace Replacer

def applyRecorded (w : Replacer) (spec : LevelSpec) (path : Path) (t : Term) :
    StateM (Journal × List Visited) (Option Term) :=
  if spec.admits path.length t then Term.recorded (fun _ => w.applyAt) path t else pure none

/-- Replacement at levels, with a record of what it tries the rules on. -/
def atLevelsRecorded (w : Replacer) (spec : LevelSpec) (heads : Bool) :
    Term → StateM (Journal × List Visited) (Option Term) :=
  Term.walk heads (fun n => spec.goesBelow n) (w.applyRecorded spec)

/-- What the rules are tried on. -/
def tried (w : Replacer) (spec : LevelSpec) (heads : Bool) (t : Term) (j : Journal) : List Visited :=
  (w.atLevelsRecorded spec heads t (j, [])).2.2

/-- All parts of the term, as they are when it is their turn. -/
def reached (w : Replacer) (spec : LevelSpec) (heads : Bool) (t : Term) (j : Journal) : List Visited :=
  Term.visits heads (fun path => w.applyWhere spec path.length) t j

variable {heads : Bool} (w : Replacer) (spec : LevelSpec) (t : Term) (j : Journal)

theorem atLevelsRecorded_eq :
    (w.atLevelsRecorded spec heads t (j, [])).1 = (w.atLevels spec heads 0 t j).1 ∧
    (w.atLevelsRecorded spec heads t (j, [])).2.1 = (w.atLevels spec heads 0 t j).2 := by
  have same (path : Path) (t : Term) : Term.Tracks (fun recording j => recording.1 = j)
      (w.applyRecorded spec path t) (w.applyWhere spec path.length t) := by
    rintro ⟨j, before⟩ _ rfl
    unfold applyRecorded applyWhere
    split <;> exact ⟨rfl, rfl⟩
  rw [atLevels_eq_atLevelsBy, atLevelsBy]
  simp only [Nat.zero_add]
  exact Term.tracks_walk same t (j, []) j rfl

/-- The rules are tried on those parts that are meant, as they are when it is their turn. -/
theorem tried_eq_filter :
    w.tried spec heads t j = (w.reached spec heads t j).filter fun v => spec.admits v.path.length v.term := by
  have same (path : Path) (t : Term) : Term.Tracks
      (fun trials visited : Journal × List Visited => trials.1 = visited.1 ∧
        trials.2 = visited.2.filter fun v => spec.admits v.path.length v.term)
      (w.applyRecorded spec path t) (Term.recorded (fun path => w.applyWhere spec path.length) path t) := by
    rintro ⟨_, _⟩ ⟨j, before⟩ ⟨journal, record⟩
    obtain rfl : _ = j := journal
    obtain rfl : _ = before.filter _ := record
    cases meant : spec.admits path.length t <;>
      simp [applyRecorded, applyWhere, Term.recorded, meant]
  have everywhere :
      w.atLevelsRecorded spec heads t = Term.walk heads (fun _ => true) (w.applyRecorded spec) t := by
    refine Term.walk_eq (fun n last path deeper t => ?_) t
    rw [applyRecorded, LevelSpec.admits_beyond last deeper t]
    rfl
  rw [tried, everywhere]
  exact (Term.tracks_walk same t (j, []) (j, []) ⟨rfl, rfl⟩).2.2

theorem path_reached : (w.reached spec heads t j).map Visited.path = t.paths heads := Term.path_visits t j

/-- Where whatever is reached is meant if the part that it has come from is, just what is meant in the
term is tried. -/
theorem path_tried (same : ∀ v ∈ w.reached spec heads t j, ∃ u, t.part? v.path = some u ∧
      spec.admits v.path.length v.term = spec.admits v.path.length u) :
    (w.tried spec heads t j).map Visited.path = spec.selects heads t := by
  rw [tried_eq_filter, LevelSpec.selects, ← path_reached w spec t j, List.filter_map]
  refine congrArg _ (List.filter_congr fun v member => ?_)
  obtain ⟨u, part, meant⟩ := same v member
  simp [part, meant]

/-- Replacement at levels comes to every part of a term once, after the parts in it, and tries the rules
on it if it is meant as it is by then, that is, after what was replaced in it. It is the part of the term
where nothing was. So the rules are tried just on the parts that are meant in the term if no bound counts
depth, and if atoms are meant, as long as no argument is replaced by nothing. -/
theorem tried_at_levels :
    ((w.atLevelsRecorded spec heads t (j, [])).1 = (w.atLevels spec heads 0 t j).1 ∧
      (w.atLevelsRecorded spec heads t (j, [])).2.1 = (w.atLevels spec heads 0 t j).2) ∧
    (w.reached spec heads t j).map Visited.path = t.paths heads ∧
    ((t.paths heads).Pairwise fun path later => ¬path <+: later) ∧
    (w.tried spec heads t j = (w.reached spec heads t j).filter fun v => spec.admits v.path.length v.term) ∧
    (∀ v ∈ w.reached spec heads t j, ∃ u, t.part? v.path = some u ∧
      v.term = u.replaceParts Term.touched
        (Term.inner fun path => resultAt (w.reached spec heads t j) (v.path ++ path)) ∧
      ((∀ d ∈ w.reached spec heads t j, v.path <+: d.path → d.path ≠ v.path → d.result = none) →
        v.term = u)) ∧
    (spec.countsDepth = false → (w.tried spec heads t j).map Visited.path = spec.selects heads t) ∧
    (heads = false → spec = ⟨-1, some (-1)⟩ →
      (∀ v ∈ w.reached spec heads t j, ∀ u, v.result = some u → u.isEmptySequence = false) →
      (w.tried spec heads t j).map Visited.path = spec.selects heads t) := by
  refine ⟨w.atLevelsRecorded_eq spec t j, w.path_reached spec t j, t.pairwise_paths,
    w.tried_eq_filter spec t j, fun v member => ?_, fun level => ?_, fun plain atoms filled => ?_⟩
  · obtain ⟨u, part, term⟩ := Term.term_visits t j v member
    refine ⟨u, part, term, fun kept => ?_⟩
    exact (Option.some.inj (part.symm.trans (Term.term_visits_of_kept member kept))).symm
  · refine w.path_tried spec t j fun v member => ?_
    obtain ⟨u, part, -⟩ := Term.term_visits t j v member
    exact ⟨u, part, LevelSpec.admits_eq level ..⟩
  · subst plain atoms
    refine w.path_tried _ t j fun v member => ?_
    obtain ⟨u, part, depth⟩ := Term.depth_visits member filled
    exact ⟨u, part, by simp only [LevelSpec.admits_atoms, depth]⟩

theorem tried_at_levels_atom :
    let w : Replacer := ⟨.bare, .replace, [replacingA]⟩
    let t : Term := .call "f" [.call "g" [.symbol "a"]]
    (∀ v ∈ w.reached ⟨-1, some (-1)⟩ false t {}, ∀ u, v.result = some u → u.isEmptySequence = false) ∧
      (w.tried ⟨-1, some (-1)⟩ false t {}).map Visited.path = [[1, 1]] ∧
      (LevelSpec.mk 1 (some 1)).countsDepth = false ∧
      (w.tried ⟨1, some 1⟩ false t {}).map Visited.path = [[1]] := by
  have reached : (⟨.bare, .replace, [replacingA]⟩ : Replacer).reached ⟨-1, some (-1)⟩ false
      (.call "f" [.call "g" [.symbol "a"]]) {} =
    [⟨[1, 1], .symbol "a", some (.symbol "b")⟩, ⟨[1], .call "g" [.symbol "b"], none⟩,
      ⟨[], .call "f" [.call "g" [.symbol "b"]], none⟩] := rfl
  have filled : ∀ v ∈ (⟨.bare, .replace, [replacingA]⟩ : Replacer).reached ⟨-1, some (-1)⟩ false
      (.call "f" [.call "g" [.symbol "a"]]) {}, ∀ u, v.result = some u → u.isEmptySequence = false := by
    rw [reached]
    simp [Term.isEmptySequence, Term.isCallWith, Term.isCall]
  obtain ⟨-, -, -, -, -, -, leaves⟩ := @tried_at_levels false ⟨.bare, .replace, [replacingA]⟩
    ⟨-1, some (-1)⟩ (.call "f" [.call "g" [.symbol "a"]]) {}
  obtain ⟨-, -, -, -, -, counted, -⟩ := @tried_at_levels false ⟨.bare, .replace, [replacingA]⟩
    ⟨1, some 1⟩ (.call "f" [.call "g" [.symbol "a"]]) {}
  exact ⟨filled, (leaves rfl rfl filled).trans rfl, rfl, (counted rfl).trans rfl⟩

def emptying : List Rule :=
  [⟨.literal (.symbol "a"), .symbol "a", .sequence [], false⟩,
    ⟨.compound (.literal (.symbol "f")) [], .call "f" [], .symbol "b", false⟩]

/-- Where an argument is replaced by nothing, what is left may count as an atom. -/
theorem tried_at_levels_emptied :
    let w : Replacer := ⟨.bare, .replace, emptying⟩
    let t : Term := .call "f" [.symbol "a"]
    (w.tried ⟨-1, some (-1)⟩ false t {}).map Visited.path = [[1], []] ∧
      LevelSpec.selects ⟨-1, some (-1)⟩ false t = [[1]] ∧ t.depth = 2 ∧
      (replace .bare t (.term (.list (emptying.map Rule.toTerm))) (some (.list [.integer (-1)])) false {}).1 =
        .ok (.symbol "b") :=
  ⟨rfl, rfl, rfl, rfl⟩

end Replacer

end TermRewriting
