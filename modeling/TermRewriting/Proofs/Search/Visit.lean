import Mathlib.Data.List.Forall2
import TermRewriting.Search.Visit

/-! Visits of a search. A search that is known as a tree of answers can be visited by unfolding the
tree; what builds searches from searches then builds visits from visits. -/

namespace TermRewriting

namespace Visit

variable {α β κ : Type}

theorem ext {v w : Visit κ} (h : ∀ s, v s = w s) : v = w := funext h

@[simp] theorem proceed_andThen (second : Unit → Visit κ) : proceed.andThen second = second () := rfl

@[simp] theorem stop_andThen (reason : Stop) (second : Unit → Visit κ) :
    (stop reason).andThen second = stop reason := rfl

@[simp] theorem andThen_proceed (v : Visit κ) : (v.andThen fun _ => proceed) = v := by
  refine ext fun s => ?_
  simp only [andThen, proceed]
  rcases v s with ⟨_ | reason, s⟩ <;> rfl

theorem andThen_assoc (v : Visit κ) (second third : Unit → Visit κ) :
    (v.andThen second).andThen third = v.andThen fun _ => (second ()).andThen third := by
  refine ext fun s => ?_
  simp only [andThen]
  rcases v s with ⟨_ | reason, s⟩ <;> rfl

theorem note_andThen (n : Notice) (next : Visit κ) (second : Unit → Visit κ) :
    (note n next).andThen second = note n (next.andThen second) := rfl

theorem inherit_andThen (cell : Position) (declared : Options) (next : Options → Visit κ)
    (second : Unit → Visit κ) :
    (inherit cell declared next).andThen second =
      inherit cell declared fun options => (next options).andThen second := rfl

@[simp] theorem each_nil (k : α → Visit κ) : each [] k = proceed := rfl

@[simp] theorem each_cons (a : α) (as : List α) (k : α → Visit κ) :
    each (a :: as) k = (k a).andThen fun _ => each as k := rfl

theorem each_proceed (as : List α) : each as (fun _ => proceed (κ := κ)) = proceed := by
  induction as with
  | nil => rfl
  | cons a as ih => simp [ih]

variable {μ : Type} {memory : μ} {v v' : Visit (μ × κ)} {w w' : Visit κ}

/-- With that working memory the first visit does what the second one does, and in the end the memory
is as it was, whether the visit goes on or stops. -/
def Restores (memory : μ) (v : Visit (μ × κ)) (w : Visit κ) : Prop :=
  ∀ j kept, v (j, memory, kept) = let (flow, j, kept) := w (j, kept); (flow, j, memory, kept)

theorem restores_proceed : Restores memory (proceed : Visit (μ × κ)) proceed := fun _ _ => rfl

theorem restores_reading (k : μ → Visit κ) : Restores memory (reading k) (k memory) := fun _ _ => rfl

theorem Restores.andThen (first : Restores memory v w) (second : Restores memory v' w') :
    Restores memory (v.andThen fun _ => v') (w.andThen fun _ => w') := by
  intro j kept
  simp only [Visit.andThen, first j kept]
  rcases w (j, kept) with ⟨_ | reason, j, kept⟩
  · exact second j kept
  · rfl

theorem Restores.during {enter leave : μ → μ} (part : Restores (enter memory) v w)
    (undone : leave (enter memory) = memory) : Restores memory (during enter leave v) w := by
  intro j kept
  simp only [Visit.during, part j kept, undone]

theorem Restores.startingWith (search : Restores memory v w) : startingWith memory v = w := by
  refine ext fun (j, kept) => ?_
  simp only [Visit.startingWith, search j kept]

theorem restores_each {as : List α} {bs : List β} {f : α → Visit (μ × κ)} {g : β → Visit κ}
    (steps : List.Forall₂ (fun a b => Restores memory (f a) (g b)) as bs) :
    Restores memory (each as f) (each bs g) := by
  induction steps with
  | nil => exact restores_proceed
  | cons first _ ih => exact first.andThen ih

end Visit

namespace Search

variable {α β γ κ : Type}

/-- Unfolds the search, handing over each answer as it comes. -/
def visit : Search α → (α → Visit κ) → Visit κ
  | .done, _ => .proceed
  | .found a next, k => (k a).andThen fun _ => visit (next ()) k
  | .note n next, k => .note n (visit (next ()) k)
  | .inherit p declared next, k => .inherit p declared fun o => visit (next o) k

@[simp] theorem visit_done (k : α → Visit κ) : (done : Search α).visit k = .proceed := rfl

@[simp] theorem visit_one (a : α) (k : α → Visit κ) : (one a).visit k = k a := by
  simp [one, visit]

theorem visit_ite {c : Prop} [Decidable c] (s t : Search α) (k : α → Visit κ) :
    (if c then s else t).visit k = if c then s.visit k else t.visit k := apply_ite (visit · k) ..

@[simp] theorem visit_append (s : Search α) (t : Unit → Search α) (k : α → Visit κ) :
    (s.append t).visit k = (s.visit k).andThen fun _ => (t ()).visit k := by
  induction s with
  | done => rfl
  | found a next ih => simp [append, visit, ih, Visit.andThen_assoc]
  | note n next ih => simp [append, visit, ih, Visit.note_andThen]
  | inherit p declared next ih => simp [append, visit, ih, Visit.inherit_andThen]

@[simp] theorem visit_bind (s : Search α) (f : α → Search β) (k : β → Visit κ) :
    (s.bind f).visit k = s.visit fun a => (f a).visit k := by
  induction s with
  | done => rfl
  | found a next ih => simp [Search.bind, visit, ih]
  | note n next ih => simp [Search.bind, visit, ih]
  | inherit p declared next ih => simp [Search.bind, visit, ih]

@[simp] theorem visit_map (f : α → β) (s : Search α) (k : β → Visit κ) :
    (s.map f).visit k = s.visit fun a => k (f a) := by
  simp [map_eq_bind]

@[simp] theorem visit_filter (holds : α → Bool) (s : Search α) (k : α → Visit κ) :
    (s.filter holds).visit k = s.visit fun a => if holds a then k a else .proceed := by
  induction s with
  | done => rfl
  | found a next ih => by_cases h : holds a <;> simp [filter, visit, h, ih]
  | note n next ih => simp [filter, visit, ih]
  | inherit p declared next ih => simp [filter, visit, ih]

/-- A probe that stops at the first answer bars the second search, and no stop of the second search
is taken for one of the probe. -/
@[simp] theorem visit_barring (s : Search α) (t : Unit → Search β) (k : β → Visit κ) :
    (s.barring t).visit k =
      (s.visit fun _ => .stop .excluded).barring fun _ => (t ()).visit k := by
  induction s with
  | done => rfl
  | found a next ih => rfl
  | note n next ih => simp only [barring, visit, ih]; rfl
  | inherit p declared next ih => simp only [barring, visit, ih]; rfl

@[simp] theorem visit_ofList (as : List α) (k : α → Visit κ) : (ofList as).visit k = .each as k := by
  induction as with
  | nil => rfl
  | cons a as ih => simp [ofList, visit, ih]

@[simp] theorem visit_ofOption (o : Option α) (k : α → Visit κ) :
    (ofOption o).visit k = match o with
      | some a => k a
      | none => .proceed := by
  cases o <;> simp [ofOption]

theorem visit_thread {step : β → α → Search β} {visitStep : β → γ → (β → Visit κ) → Visit κ}
    {as : List α} {cs : List γ}
    (same : List.Forall₂ (fun a c => ∀ b k, visitStep b c k = (step b a).visit k) as cs) (b : β)
    (k : β → Visit κ) : Visit.thread visitStep cs b k = (thread step as b).visit k := by
  induction same generalizing b with
  | nil => simp [thread, Visit.thread]
  | cons first _ ih => simp [thread, Visit.thread, first, ih]

/-- A visitor that follows a strategy is left with what running the strategy yields. -/
theorem visit_follow (s : Search α) (strategy : Strategy α) (j : Journal) (seen : Array α) :
    s.visit (Visit.follow strategy) (j, seen) =
      let o := s.runFrom strategy seen j
      (o.stop, (o.journal, o.seen)) := by
  induction s generalizing j seen with
  | done => rfl
  | found a next ih =>
    simp only [visit, Visit.andThen, Visit.follow, runFrom]
    cases strategy (seen.push a) with
    | none => simp [ih]
    | some reason => rfl
  | note n next ih => exact ih ..
  | inherit p declared next ih => exact ih ..

theorem outcome_visit (s : Search α) (strategy : Strategy α) (j : Journal) :
    Visit.outcome s.visit strategy j = s.run strategy j := by
  simp only [Visit.outcome, visit_follow, run]

end Search

end TermRewriting
