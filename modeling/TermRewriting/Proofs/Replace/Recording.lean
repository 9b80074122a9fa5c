import TermRewriting.Proofs.Replace.Levels

/-! A record of the parts that a walk comes to. It accounts for the result of the walk, and for what has
become of each part by the time the walk comes to it. -/

namespace TermRewriting

variable {σ τ α β : Type} {heads : Bool}

/-- A part that a walk comes to: what has become of it by then, and what takes its place. -/
structure Visited where
  path : Path
  term : Term
  result : Option Term

namespace Visited

/-- Seen from the term of which this is within a child. -/
def under (number : Nat) (v : Visited) : Visited := { v with path := number :: v.path }

@[simp] theorem path_under (number : Nat) (v : Visited) : (v.under number).path = number :: v.path := rfl

@[simp] theorem term_under (number : Nat) (v : Visited) : (v.under number).term = v.term := rfl

@[simp] theorem result_under (number : Nat) (v : Visited) : (v.under number).result = v.result := rfl

/-- What takes the place of the part along the path. -/
def resultAt (vs : List Visited) (path : Path) : Option Term :=
  (vs.find? (·.path == path)).bind result

variable {vs others : List Visited} {path : Path}

theorem exists_of_resultAt {u : Term} (found : resultAt vs path = some u) :
    ∃ v ∈ vs, v.path = path ∧ v.result = some u := by
  obtain ⟨v, first, result⟩ := Option.bind_eq_some_iff.mp found
  exact ⟨v, List.mem_of_find?_eq_some first, by simpa using List.find?_some first, result⟩

theorem find?_of_elsewhere (elsewhere : path ∉ vs.map Visited.path) : vs.find? (·.path == path) = none := by
  rw [List.find?_eq_none]
  intro v member here
  exact elsewhere (List.mem_map.mpr ⟨v, member, by simpa using here⟩)

theorem resultAt_append_of_elsewhere (elsewhere : path ∉ vs.map Visited.path) :
    resultAt (vs ++ others) path = resultAt others path := by
  rw [resultAt, List.find?_append, find?_of_elsewhere elsewhere, Option.none_or, resultAt]

theorem resultAt_append_left (elsewhere : path ∉ others.map Visited.path) :
    resultAt (vs ++ others) path = resultAt vs path := by
  rw [resultAt, List.find?_append, find?_of_elsewhere elsewhere, Option.or_none, resultAt]

theorem resultAt_under (number : Nat) (path : Path) :
    resultAt (vs.map (·.under number)) (number :: path) = resultAt vs path := by
  have same : (fun v : Visited => (v.under number).path == number :: path) = fun v => v.path == path := by
    funext v
    simp
  rw [resultAt, List.find?_map, Function.comp_def, same, resultAt]
  cases vs.find? (·.path == path) <;> rfl

end Visited

namespace Term

/-- From related states the computations come to the same result, and to related states. -/
def Tracks (R : σ → τ → Prop) (m : StateM σ α) (m' : StateM τ α) : Prop :=
  ∀ s s', R s s' → (m s).1 = (m' s').1 ∧ R (m s).2 (m' s').2

variable {R : σ → τ → Prop} {rewrite : Path → Term → StateM σ (Option Term)}
  {rewrite' : Path → Term → StateM τ (Option Term)} {descends : Nat → Bool}

@[simp] theorem pure_apply (a : α) (s : σ) : (pure a : StateM σ α) s = (a, s) := rfl

theorem tracks_pure (a : α) : Tracks R (pure a) (pure a) := fun _ _ related => ⟨rfl, related⟩

theorem Tracks.bind {m : StateM σ α} {m' : StateM τ α} {k : α → StateM σ β} {k' : α → StateM τ β}
    (h : Tracks R m m') (each : ∀ a, Tracks R (k a) (k' a)) : Tracks R (m >>= k) (m' >>= k') := by
  intro s s' related
  obtain ⟨same, after⟩ := h s s' related
  have next := each (m s).1 _ _ after
  change (k (m s).1 (m s).2).1 = (k' (m' s').1 (m' s').2).1 ∧
    R (k (m s).1 (m s).2).2 (k' (m' s').1 (m' s').2).2
  rw [← same]
  exact next

theorem tracks_walkArgs {ts : List Term}
    (each : ∀ t ∈ ts, ∀ n, Tracks R (walk heads descends (fun path => rewrite (n :: path)) t)
      (walk heads descends (fun path => rewrite' (n :: path)) t)) (number : Nat) :
    Tracks R (walkArgs heads descends rewrite number ts) (walkArgs heads descends rewrite' number ts) := by
  induction ts generalizing number with
  | nil => exact tracks_pure none
  | cons t ts ih =>
    have later := ih (fun t member => each t (by simp [member])) (number + 1)
    exact (each t (by simp) number).bind fun _ => later.bind fun _ => tracks_pure _

theorem tracks_walk (each : ∀ path t, Tracks R (rewrite path t) (rewrite' path t)) (t : Term) :
    Tracks R (walk heads descends rewrite t) (walk heads descends rewrite' t) := by
  induction t using Term.induct generalizing rewrite rewrite' descends with
  | app head args head_ih ih =>
    have inHead : Tracks R (walk heads (fun n => descends (n + 1)) (fun path => rewrite (0 :: path)) head)
        (walk heads (fun n => descends (n + 1)) (fun path => rewrite' (0 :: path)) head) :=
      head_ih fun path => each (0 :: path)
    have inArgs : Tracks R (walkArgs heads (fun n => descends (n + 1)) rewrite 1 args)
        (walkArgs heads (fun n => descends (n + 1)) rewrite' 1 args) :=
      tracks_walkArgs (fun t member n => ih t member fun path => each (n :: path)) 1
    have here (below : Option Term) := (each [] (below.getD (.app head args))).bind fun result =>
      tracks_pure (R := R) (result.or below)
    simp only [walk, pure_bind]
    cases descends 0 with
    | false => exact here none
    | true =>
      cases heads with
      | false => exact inArgs.bind fun newArgs => here _
      | true => exact inHead.bind fun newHead => inArgs.bind fun newArgs => here _
  | _ => exact each [] _

def recorded (rewrite : Path → Term → StateM σ (Option Term)) (path : Path) (t : Term) :
    StateM (σ × List Visited) (Option Term) := fun recording =>
  let run := rewrite path t recording.1
  (run.1, run.2, recording.2 ++ [⟨path, t, run.1⟩])

/-- The parts that a walk through all of the term comes to, in that order. -/
def visits (heads : Bool) (rewrite : Path → Term → StateM σ (Option Term)) (t : Term) (s : σ) : List Visited :=
  (walk heads (fun _ => true) (recorded rewrite) t (s, [])).2.2

def visitsFrom (heads : Bool) (rewrite : Path → Term → StateM σ (Option Term)) (number : Nat) :
    List Term → σ → List Visited
  | [], _ => []
  | t :: ts, s =>
    (visits heads (fun path => rewrite (number :: path)) t s).map (·.under number) ++
      visitsFrom heads rewrite (number + 1) ts
        (walk heads (fun _ => true) (fun path => rewrite (number :: path)) t s).2

theorem walk_recorded (t : Term) (s : σ) (before : List Visited) :
    (walk heads descends (recorded rewrite) t (s, before)).1 = (walk heads descends rewrite t s).1 ∧
    (walk heads descends (recorded rewrite) t (s, before)).2.1 = (walk heads descends rewrite t s).2 := by
  have same (path : Path) (t : Term) :
      Tracks (fun recording s => recording.1 = s) (recorded rewrite path t) (rewrite path t) := by
    rintro ⟨s, before⟩ _ rfl
    exact ⟨rfl, rfl⟩
  exact tracks_walk same t (s, before) s rfl

theorem walk_recorded_child (number : Nat) (t : Term) (s : σ) (before : List Visited) :
    (walk heads (fun _ => true) (fun path => recorded rewrite (number :: path)) t (s, before)) =
      let child := walk heads (fun _ => true) (fun path => rewrite (number :: path)) t s
      (child.1, child.2,
        before ++ (visits heads (fun path => rewrite (number :: path)) t s).map (·.under number)) := by
  have same (path : Path) (t : Term) : Tracks
      (fun outside inside : σ × List Visited => outside.1 = inside.1 ∧
        outside.2 = before ++ inside.2.map (·.under number))
      (recorded rewrite (number :: path) t) (recorded (fun path => rewrite (number :: path)) path t) := by
    rintro outside inside ⟨same, record⟩
    simp [recorded, same, record, Visited.under]
  have walks : Tracks _ (walk heads (fun _ => true) (fun path => recorded rewrite (number :: path)) t)
      (walk heads (fun _ => true) (recorded fun path => rewrite (number :: path)) t) := tracks_walk same t
  obtain ⟨sameResult, sameState, record⟩ := walks (s, before) (s, []) ⟨rfl, by simp⟩
  obtain ⟨result, after⟩ := walk_recorded t s []
  exact Prod.ext (sameResult.trans result) (Prod.ext (sameState.trans after) record)

theorem walkArgs_recorded (number : Nat) (ts : List Term) (s : σ) (before : List Visited) :
    (walkArgs heads (fun _ => true) (recorded rewrite) number ts (s, before)) =
      let inArgs := walkArgs heads (fun _ => true) rewrite number ts s
      (inArgs.1, inArgs.2, before ++ visitsFrom heads rewrite number ts s) := by
  induction ts generalizing number s before with
  | nil => simp [walkArgs, visitsFrom]
  | cons t ts ih =>
    simp only [walkArgs, bind, StateT.bind, walk_recorded_child, ih, visitsFrom, List.append_assoc]
    rfl

def walkHead (heads : Bool) (rewrite : Path → Term → StateM σ (Option Term)) (head : Term) :
    StateM σ (Option Term) :=
  if heads then walk heads (fun _ => true) (fun path => rewrite (0 :: path)) head else pure none

theorem walk_app (head : Term) (args : List Term) (s : σ) :
    walk heads (fun _ => true) rewrite (.app head args) s =
      let inHead := walkHead heads rewrite head s
      let inArgs := walkArgs heads (fun _ => true) rewrite 1 args inHead.2
      let below := changed? head args inHead.1 inArgs.1
      let here := rewrite [] (below.getD (.app head args)) inArgs.2
      (here.1.or below, here.2) := by
  cases heads <;> rfl

def visitsHead (heads : Bool) (rewrite : Path → Term → StateM σ (Option Term)) (head : Term) (s : σ) :
    List Visited :=
  if heads then (visits heads (fun path => rewrite (0 :: path)) head s).map (·.under 0) else []

theorem visits_app (head : Term) (args : List Term) (s : σ) :
    visits heads rewrite (.app head args) s =
      let inHead := walkHead heads rewrite head s
      let inArgs := walkArgs heads (fun _ => true) rewrite 1 args inHead.2
      let current := (changed? head args inHead.1 inArgs.1).getD (.app head args)
      visitsHead heads rewrite head s ++ visitsFrom heads rewrite 1 args inHead.2 ++
        [⟨[], current, (rewrite [] current inArgs.2).1⟩] := by
  rw [visits, walk_app]
  cases heads with
  | false => simp [walkHead, visitsHead, walkArgs_recorded, recorded]
  | true => simp [walkHead, visitsHead, walk_recorded_child, walkArgs_recorded, recorded]

theorem path_visitsFrom {ts : List Term}
    (each : ∀ t ∈ ts, ∀ (rewrite : Path → Term → StateM σ (Option Term)) s,
      (visits heads rewrite t s).map Visited.path = t.paths heads) (number : Nat) (s : σ) :
    (visitsFrom heads rewrite number ts s).map Visited.path = pathsFrom heads number ts := by
  induction ts generalizing number s with
  | nil => rfl
  | cons t ts ih =>
    have first := each t (by simp) (fun path => rewrite (number :: path)) s
    have rest := ih (fun t member => each t (by simp [member])) (number + 1)
    simp only [visitsFrom, pathsFrom, List.map_append, List.map_map, ← first, rest]
    rfl

/-- A walk through all of the term comes to every part once. -/
theorem path_visits (t : Term) (s : σ) : (visits heads rewrite t s).map Visited.path = t.paths heads := by
  induction t using Term.induct generalizing rewrite s with
  | app head args head_ih ih =>
    have inHead := @head_ih (fun path => rewrite (0 :: path)) s
    have inArgs (s : σ) : (visitsFrom heads rewrite 1 args s).map Visited.path = pathsFrom heads 1 args :=
      path_visitsFrom (fun t member _ s => ih t member s) 1 s
    rw [visits_app, paths]
    cases heads with
    | false => simp [visitsHead, inArgs]
    | true => simp [visitsHead, inArgs, ← inHead, Function.comp_def]
  | _ => rfl

open Visited (resultAt)

theorem not_mem_path_visitsFrom {number n : Nat} (before : n < number) (ts : List Term) (path : Path) (s : σ) :
    n :: path ∉ (visitsFrom heads rewrite number ts s).map Visited.path := by
  rw [path_visitsFrom fun t _ _ s => path_visits t s, mem_pathsFrom]
  rintro ⟨i, inside, same, -⟩
  obtain ⟨rfl, -⟩ := List.cons.inj same
  omega

theorem resultAt_visitsFrom_first (number : Nat) (t : Term) (ts : List Term) (path : Path) (s : σ) :
    resultAt (visitsFrom heads rewrite number (t :: ts) s) (number :: path) =
      resultAt (visits heads (fun path => rewrite (number :: path)) t s) path := by
  rw [visitsFrom, Visited.resultAt_append_left (not_mem_path_visitsFrom (Nat.lt_succ_self _) _ _ _),
    Visited.resultAt_under]

theorem resultAt_visitsFrom_rest {number n : Nat} (later : number < n) (t : Term) (ts : List Term)
    (path : Path) (s : σ) :
    resultAt (visitsFrom heads rewrite number (t :: ts) s) (n :: path) =
      resultAt (visitsFrom heads rewrite (number + 1) ts
        (walk heads (fun _ => true) (fun path => rewrite (number :: path)) t s).2) (n :: path) := by
  refine Visited.resultAt_append_of_elsewhere fun elsewhere => ?_
  obtain ⟨v, member, same⟩ := List.mem_map.mp elsewhere
  obtain ⟨u, -, rfl⟩ := List.mem_map.mp member
  exact Nat.ne_of_lt later (List.cons.inj same).1

theorem mem_path_visitsHead {head : Term} {path : Path} {s : σ}
    (member : path ∈ (visitsHead heads rewrite head s).map Visited.path) : ∃ inside, path = 0 :: inside := by
  cases heads with
  | false => cases member
  | true =>
    obtain ⟨v, recorded, rfl⟩ := List.mem_map.mp member
    obtain ⟨u, -, rfl⟩ := List.mem_map.mp recorded
    exact ⟨u.path, rfl⟩

variable (head : Term) (args : List Term) (path : Path) (s : σ)

theorem resultAt_visits_zero :
    resultAt (visits heads rewrite (.app head args) s) (0 :: path) =
      resultAt (visitsHead heads rewrite head s) (0 :: path) := by
  rw [visits_app, Visited.resultAt_append_left (by simp),
    Visited.resultAt_append_left (not_mem_path_visitsFrom Nat.one_pos _ _ _)]

theorem resultAt_visits_succ (n : Nat) :
    resultAt (visits heads rewrite (.app head args) s) ((n + 1) :: path) =
      resultAt (visitsFrom heads rewrite 1 args (walkHead heads rewrite head s).2) ((n + 1) :: path) := by
  have notInHead : (n + 1) :: path ∉ (visitsHead heads rewrite head s).map Visited.path := by
    intro member
    obtain ⟨_, same⟩ := mem_path_visitsHead member
    simp at same
  rw [visits_app, Visited.resultAt_append_left (by simp), Visited.resultAt_append_of_elsewhere notInHead]

theorem resultAt_visits_nil :
    let inHead := walkHead heads rewrite head s
    let inArgs := walkArgs heads (fun _ => true) rewrite 1 args inHead.2
    let current := (changed? head args inHead.1 inArgs.1).getD (.app head args)
    resultAt (visits heads rewrite (.app head args) s) [] = (rewrite [] current inArgs.2).1 := by
  have below : [] ∉ (visitsHead heads rewrite head s ++
      visitsFrom heads rewrite 1 args (walkHead heads rewrite head s).2).map Visited.path := by
    rw [List.map_append, List.mem_append, path_visitsFrom fun t _ _ s => path_visits t s, mem_pathsFrom]
    rintro (inHead | ⟨i, inside, same, -⟩)
    · obtain ⟨_, same⟩ := mem_path_visitsHead inHead
      cases same
    · cases same
  rw [visits_app, Visited.resultAt_append_of_elsewhere below]
  rfl

theorem walkArgs_fst {ts : List Term}
    (each : ∀ t ∈ ts, ∀ (rewrite : Path → Term → StateM σ (Option Term)) s,
      (walk heads (fun _ => true) rewrite t s).1 = rebuilt? (resultAt (visits heads rewrite t s)) t)
    {number : Nat} {new : Path → Option Term} (s : σ)
    (inside : ∀ n path, number ≤ n →
      new (n :: path) = resultAt (visitsFrom heads rewrite number ts s) (n :: path)) :
    (walkArgs heads (fun _ => true) rewrite number ts s).1 = rebuiltFrom? new number ts := by
  induction ts generalizing number s with
  | nil => rfl
  | cons t ts ih =>
    have here : (fun path => new (number :: path)) =
        resultAt (visits heads (fun path => rewrite (number :: path)) t s) :=
      funext fun path => (inside number path (Nat.le_refl _)).trans (resultAt_visitsFrom_first ..)
    have later (n : Nat) (path : Path) (after : number + 1 ≤ n) : new (n :: path) =
        resultAt (visitsFrom heads rewrite (number + 1) ts
          (walk heads (fun _ => true) (fun path => rewrite (number :: path)) t s).2) (n :: path) :=
      (inside n path (Nat.le_of_lt after)).trans (resultAt_visitsFrom_rest after t ts path s)
    have rest := ih (fun u member => each u (by simp [member])) _ later
    rw [rebuiltFrom?_cons, here, ← each t (by simp), ← rest]
    rfl

theorem walkHead_fst {head : Term} {s : σ} {new : Path → Option Term}
    (each : ∀ (rewrite : Path → Term → StateM σ (Option Term)) s,
      (walk heads (fun _ => true) rewrite head s).1 = rebuilt? (resultAt (visits heads rewrite head s)) head)
    (inside : ∀ path, new (0 :: path) = resultAt (visitsHead heads rewrite head s) (0 :: path)) :
    (walkHead heads rewrite head s).1 = rebuilt? (fun path => new (0 :: path)) head := by
  cases heads with
  | false =>
    have untouched : touched (fun path => new (0 :: path)) head = false := by
      simp [touched, inside, visitsHead, resultAt]
    rw [rebuilt?, untouched]
    rfl
  | true =>
    have same : (fun path => new (0 :: path)) =
        resultAt (visits true (fun path => rewrite (0 :: path)) head s) :=
      funext fun path => (inside path).trans (Visited.resultAt_under 0 path)
    rw [same, ← each]
    rfl

theorem rebuilt?_app_fst {head : Term} {args : List Term}
    (inHead : ∀ (rewrite : Path → Term → StateM σ (Option Term)) s,
      (walk heads (fun _ => true) rewrite head s).1 = rebuilt? (resultAt (visits heads rewrite head s)) head)
    (inArgs : ∀ t ∈ args, ∀ (rewrite : Path → Term → StateM σ (Option Term)) s,
      (walk heads (fun _ => true) rewrite t s).1 = rebuilt? (resultAt (visits heads rewrite t s)) t)
    {new : Path → Option Term} {s : σ}
    (inside : ∀ n path, new (n :: path) = resultAt (visits heads rewrite (.app head args) s) (n :: path)) :
    rebuilt? new (.app head args) = (new []).or (changed? head args (walkHead heads rewrite head s).1
      (walkArgs heads (fun _ => true) rewrite 1 args (walkHead heads rewrite head s).2).1) := by
  have newHead : (walkHead heads rewrite head s).1 = rebuilt? (fun path => new (0 :: path)) head :=
    walkHead_fst inHead fun path => (inside 0 path).trans (resultAt_visits_zero ..)
  have later (n : Nat) (path : Path) (positive : 1 ≤ n) : new (n :: path) =
      resultAt (visitsFrom heads rewrite 1 args (walkHead heads rewrite head s).2) (n :: path) := by
    obtain ⟨m, rfl⟩ := Nat.exists_eq_succ_of_ne_zero (Nat.one_le_iff_ne_zero.mp positive)
    exact (inside (m + 1) path).trans (resultAt_visits_succ ..)
  rw [rebuilt?_app, newHead, walkArgs_fst inArgs _ later]

/-- The result of a walk through all of the term is the term with, along each path where there is a
result, the outermost of them. -/
theorem walk_fst (t : Term) (s : σ) :
    (walk heads (fun _ => true) rewrite t s).1 = rebuilt? (resultAt (visits heads rewrite t s)) t := by
  induction t using Term.induct generalizing rewrite s with
  | app head args head_ih ih =>
    rw [rebuilt?_app_fst (fun _ => head_ih) (fun t member _ => ih t member) fun _ _ => rfl, walk_app,
      resultAt_visits_nil]
  | _ =>
    rw [rebuilt?_of_isAtom _ rfl]
    rfl

/-- What is new in a term, other than the term itself. -/
def inner (new : Path → Option Term) : Path → Option Term
  | [] => none
  | n :: path => new (n :: path)

theorem term_visitsFrom {ts : List Term}
    (each : ∀ t ∈ ts, ∀ (rewrite : Path → Term → StateM σ (Option Term)) s,
      ∀ v ∈ visits heads rewrite t s, ∃ u, t.part? v.path = some u ∧
        v.term = u.replaceParts touched (inner fun path => resultAt (visits heads rewrite t s) (v.path ++ path)))
    (number : Nat) (s : σ) {v : Visited} (member : v ∈ visitsFrom heads rewrite number ts s) :
    ∃ i t path u, v.path = (number + i) :: path ∧ ts[i]? = some t ∧ t.part? path = some u ∧
      v.term = u.replaceParts touched
        (inner fun path => resultAt (visitsFrom heads rewrite number ts s) (v.path ++ path)) := by
  induction ts generalizing number s with
  | nil => cases member
  | cons t ts ih =>
    rcases List.mem_append.mp member with first | later
    · obtain ⟨v, inside, rfl⟩ := List.mem_map.mp first
      obtain ⟨u, part, term⟩ := each t (by simp) _ s v inside
      refine ⟨0, t, v.path, u, rfl, rfl, part, term.trans ?_⟩
      simp only [Visited.path_under, List.cons_append, resultAt_visitsFrom_first]
    · obtain ⟨i, u, path, part, same, found, inside, term⟩ :=
        ih (fun t member => each t (by simp [member])) (number + 1) _ later
      refine ⟨i + 1, u, path, part, by rw [same, Nat.add_right_comm, Nat.add_assoc], found, inside, term.trans ?_⟩
      have beyond : number < number + 1 + i := by omega
      simp only [same, List.cons_append, resultAt_visitsFrom_rest beyond]

/-- The walk comes to a part as it is after what the record says of the parts in it. -/
theorem term_visits (t : Term) (s : σ) : ∀ v ∈ visits heads rewrite t s, ∃ u, t.part? v.path = some u ∧
    v.term = u.replaceParts touched (inner fun path => resultAt (visits heads rewrite t s) (v.path ++ path)) := by
  induction t using Term.induct generalizing rewrite s with
  | app head args head_ih ih =>
    intro v member
    have place := member
    rw [visits_app, List.mem_append, List.mem_append, List.mem_singleton] at place
    rcases place with (inHead | inArgs) | rfl
    · cases heads with
      | false => cases inHead
      | true =>
        obtain ⟨v, inside, rfl⟩ := List.mem_map.mp inHead
        obtain ⟨u, part, term⟩ := head_ih s v inside
        have result (path : Path) : resultAt (visitsHead true rewrite head s) (0 :: path) =
          resultAt (visits true (fun path => rewrite (0 :: path)) head s) path := Visited.resultAt_under 0 path
        refine ⟨u, part, term.trans ?_⟩
        simp only [Visited.path_under, List.cons_append, resultAt_visits_zero, result]
    · obtain ⟨i, t, path, u, same, found, part, term⟩ :=
        term_visitsFrom (fun t member _ => ih t member) 1 _ inArgs
      rw [Nat.add_comm] at same
      refine ⟨u, by rw [same, part?, child?, found, Option.bind_some, part], term.trans ?_⟩
      simp only [same, List.cons_append, resultAt_visits_succ]
    · have current := rebuilt?_app_fst (fun _ => walk_fst head) (fun t _ _ => walk_fst t)
        fun n path => show inner (resultAt (visits heads rewrite (.app head args) s)) (n :: path) = _ from rfl
      refine ⟨.app head args, rfl, .trans ?_ (getD_rebuilt? _ _)⟩
      exact (congrArg (Option.getD · (.app head args)) current).symm
  | _ =>
    intro v member
    obtain rfl := List.mem_singleton.mp member
    exact ⟨_, rfl, rfl⟩

theorem exists_of_inner {vs : List Visited} {outside path : Path} {u : Term}
    (found : inner (fun path => resultAt vs (outside ++ path)) path = some u) :
    ∃ v ∈ vs, v.path = outside ++ path ∧ path ≠ [] ∧ v.result = some u := by
  cases path with
  | nil => cases found
  | cons n path =>
    obtain ⟨v, member, same, result⟩ := Visited.exists_of_resultAt found
    exact ⟨v, member, same, List.cons_ne_nil n path, result⟩

/-- Where nothing is replaced below a part, the walk comes to that part as it is in the term. -/
theorem term_visits_of_kept {t : Term} {s : σ} {v : Visited} (member : v ∈ visits heads rewrite t s)
    (kept : ∀ d ∈ visits heads rewrite t s, v.path <+: d.path → d.path ≠ v.path → d.result = none) :
    t.part? v.path = some v.term := by
  obtain ⟨u, part, term⟩ := term_visits t s v member
  have nothing (path : Path) :
      inner (fun path => resultAt (visits heads rewrite t s) (v.path ++ path)) path = none := by
    refine Option.eq_none_iff_forall_not_mem.mpr fun result found => ?_
    obtain ⟨d, visited, below, deeper, replaced⟩ := exists_of_inner found
    have unchanged := kept d visited (below ▸ List.prefix_append ..) (by simp [below, deeper])
    simp [unchanged] at replaced
  have untouched :
      touched (inner fun path => resultAt (visits heads rewrite t s) (v.path ++ path)) u = false := by
    simp [touched, nothing]
  rw [part, term, replaceParts_of_untouched (fun _ _ => id) untouched]

end Term

end TermRewriting
