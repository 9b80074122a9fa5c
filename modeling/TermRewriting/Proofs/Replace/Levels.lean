import TermRewriting.Proofs.Replace.Outermost

/-! Replacement at levels goes through a term from its innermost parts outwards. It does not go below
the last level that is meant, and would come to the same if it went everywhere. -/

namespace TermRewriting

variable {σ : Type} {heads : Bool} {descends : Nat → Bool}
  {rewrite : Path → Term → StateM σ (Option Term)}

namespace Term

mutual

/-- Goes through a term and rewrites each part, as what has become of it when all parts in it have been
rewritten. It goes into a part only if it descends from the level of that part, and into heads only if
they are meant. -/
@[grind =]
def walk (heads : Bool) (descends : Nat → Bool) (rewrite : Path → Term → StateM σ (Option Term)) :
    Term → StateM σ (Option Term)
  | .app head args => do
    let below ← if descends 0 then
        let newHead ← if heads then
            walk heads (fun n => descends (n + 1)) (fun path => rewrite (0 :: path)) head
          else pure none
        pure (changed? head args newHead (← walkArgs heads (fun n => descends (n + 1)) rewrite 1 args))
      else pure none
    return (← rewrite [] (below.getD (.app head args))).or below
  | t => rewrite [] t

/-- The same for arguments, the first of which has that number. -/
@[grind =]
def walkArgs (heads : Bool) (descends : Nat → Bool) (rewrite : Path → Term → StateM σ (Option Term))
    (number : Nat) : List Term → StateM σ (Option (List Term))
  | [] => return none
  | t :: ts => do
    let first ← walk heads descends (fun path => rewrite (number :: path)) t
    let rest ← walkArgs heads descends rewrite (number + 1) ts
    return changedArgs? t ts first rest

end

theorem walkArgs_of_idle {ts : List Term}
    (each : ∀ t ∈ ts, ∀ n, walk heads descends (fun path => rewrite (n :: path)) t = pure none) (number : Nat) :
    walkArgs heads descends rewrite number ts = pure none := by
  induction ts generalizing number with
  | nil => rfl
  | cons t ts ih =>
    rw [walkArgs, each t (by simp), ih fun t member => each t (by simp [member])]
    rfl

theorem walk_of_idle (idle : ∀ path t, rewrite path t = pure none) (t : Term) :
    walk heads descends rewrite t = pure none := by
  induction t using Term.induct generalizing descends rewrite with
  | app head args head_ih ih =>
    have inHead : walk heads (fun n => descends (n + 1)) (fun path => rewrite (0 :: path)) head = pure none :=
      head_ih fun path => idle (0 :: path)
    have inArgs : walkArgs heads (fun n => descends (n + 1)) rewrite 1 args = pure none :=
      walkArgs_of_idle (fun t member n => ih t member fun path => idle (n :: path)) 1
    simp only [walk, inHead, inArgs, idle]
    cases descends 0 <;> cases heads <;> rfl
  | _ => exact idle [] _

theorem walkArgs_eq {ts : List Term}
    (each : ∀ t ∈ ts, ∀ n, walk heads descends (fun path => rewrite (n :: path)) t =
      walk heads (fun _ => true) (fun path => rewrite (n :: path)) t) (number : Nat) :
    walkArgs heads descends rewrite number ts = walkArgs heads (fun _ => true) rewrite number ts := by
  induction ts generalizing number with
  | nil => rfl
  | cons t ts ih =>
    rw [walkArgs, walkArgs, each t (by simp), ih fun t member => each t (by simp [member])]

/-- Whether the walk goes on below a level makes no difference if nothing is rewritten there. -/
theorem walk_eq
    (beyond : ∀ n, descends n = false → ∀ path, n < path.length → ∀ t, rewrite path t = pure none)
    (t : Term) : walk heads descends rewrite t = walk heads (fun _ => true) rewrite t := by
  induction t using Term.induct generalizing descends rewrite with
  | app head args head_ih ih =>
    cases enters : descends 0 with
    | false =>
      have idle (n : Nat) (path : Path) (t : Term) : rewrite (n :: path) t = pure none :=
        beyond 0 enters (n :: path) (Nat.zero_lt_succ _) t
      have inHead : walk heads (fun _ => true) (fun path => rewrite (0 :: path)) head = pure none :=
        walk_of_idle (idle 0) head
      have inArgs : walkArgs heads (fun _ => true) rewrite 1 args = pure none :=
        walkArgs_of_idle (fun t _ n => walk_of_idle (idle n) t) 1
      simp only [walk, enters, inHead, inArgs]
      cases heads <;> rfl
    | true =>
      have inside (number n : Nat) (last : descends (n + 1) = false) (path : Path) (deeper : n < path.length)
          (t : Term) : rewrite (number :: path) t = pure none :=
        beyond (n + 1) last (number :: path) (Nat.succ_lt_succ deeper) t
      have inHead := head_ih (inside 0)
      have inArgs := walkArgs_eq (fun t member number => ih t member (inside number)) 1
      simp only [walk, enters, inHead, inArgs]
  | _ => rfl

end Term

theorem LevelSpec.admits_beyond {s : LevelSpec} {level deeper : Nat} (last : s.goesBelow level = false)
    (below : level < deeper) (t : Term) : s.admits deeper t = false := by
  obtain ⟨start, stop⟩ := s
  cases stop with
  | none => simp [goesBelow] at last
  | some stop =>
    have bounds : 0 ≤ stop ∧ stop ≤ level := by simpa [goesBelow] using last
    have outside : ¬(deeper : Int) ≤ stop := by omega
    simp [admits, bounds.1, outside]

namespace Replacer

def applyWhere (w : Replacer) (spec : LevelSpec) (level : Nat) (t : Term) : StateM Journal (Option Term) :=
  if spec.admits level t then w.applyAt t else pure none

/-- Replacement at levels in a term at that level, but with a test of its own for going deeper. -/
def atLevelsBy (w : Replacer) (descends : Nat → Bool) (spec : LevelSpec) (heads : Bool) (level : Nat) :
    Term → StateM Journal (Option Term) :=
  Term.walk heads (fun n => descends (level + n)) fun path => w.applyWhere spec (level + path.length)

variable {w : Replacer} {spec : LevelSpec}

theorem walk_child (w : Replacer) (spec : LevelSpec) (heads : Bool) (descends : Nat → Bool)
    (number level : Nat) :
    Term.walk heads (fun n => descends (level + (n + 1)))
        (fun path => w.applyWhere spec (level + (number :: path).length)) =
      w.atLevelsBy descends spec heads (level + 1) := by
  have next (n : Nat) : level + (n + 1) = level + 1 + n := by omega
  have descends_next : (fun n => descends (level + (n + 1))) = fun n => descends (level + 1 + n) :=
    funext fun n => congrArg descends (next n)
  have applies_next : (fun path : Path => w.applyWhere spec (level + (number :: path).length)) =
      fun path => w.applyWhere spec (level + 1 + path.length) :=
    funext fun path => congrArg (w.applyWhere spec) (next path.length)
  rw [atLevelsBy, descends_next, applies_next]

theorem atLevelsArgs_eq {ts : List Term} {level : Nat}
    (each : ∀ t ∈ ts, w.atLevels spec heads (level + 1) t =
      w.atLevelsBy (fun n => spec.goesBelow n) spec heads (level + 1) t) (number : Nat) :
    w.atLevelsArgs spec heads (level + 1) ts =
      Term.walkArgs heads (fun n => spec.goesBelow (level + (n + 1) : Nat))
        (fun path => w.applyWhere spec (level + path.length)) number ts := by
  induction ts generalizing number with
  | nil => rfl
  | cons t ts ih =>
    have first := congrFun (walk_child w spec heads (fun n => spec.goesBelow n) number level) t
    rw [atLevelsArgs, Term.walkArgs, each t (by simp), first,
      ih (fun t member => each t (by simp [member])) (number + 1)]
    rfl

/-- The program goes down to the last level that is meant. -/
theorem atLevels_eq_atLevelsBy (level : Nat) (t : Term) :
    w.atLevels spec heads level t = w.atLevelsBy (fun n => spec.goesBelow n) spec heads level t := by
  induction t using Term.induct generalizing level with
  | app head args head_ih ih =>
    have inHead := congrFun (walk_child w spec heads (fun n => spec.goesBelow n) 0 level) head
    have inArgs := atLevelsArgs_eq (fun t member => ih t member (level + 1)) 1
    have here (below : Option Term) :
        (if spec.admits level (below.getD (.app head args)) then
            (do return (← w.applyAt (below.getD (.app head args))).or below)
          else pure below) =
        (do return (← w.applyWhere spec level (below.getD (.app head args))).or below) := by
      unfold applyWhere
      split <;> rfl
    rw [atLevelsBy, Term.walk, inHead, ← inArgs, ← head_ih (level + 1)]
    simp only [atLevels, Nat.add_zero, List.length_nil]
    cases spec.goesBelow level <;> cases heads <;>
      simp only [pure_bind, reduceIte, Bool.false_eq_true, here]
  | _ => rfl

/-- Replacement at levels leaves out nothing by not going below the last level that is meant. It comes
to the same as going through all of the term, with the same rules applied to the same terms in the same
order. -/
theorem atLevels_eq_everywhere (w : Replacer) (spec : LevelSpec) (heads : Bool) (level : Nat) (t : Term) :
    w.atLevels spec heads level t = w.atLevelsBy (fun _ => true) spec heads level t := by
  rw [atLevels_eq_atLevelsBy]
  refine Term.walk_eq (fun n last path deeper t => ?_) t
  have outside : spec.admits (level + path.length : Nat) t = false :=
    LevelSpec.admits_beyond last (Nat.add_lt_add_left deeper level) t
  simp only [applyWhere, outside]
  rfl

end Replacer

end TermRewriting
