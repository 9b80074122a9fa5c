import TermRewriting.Search.Answers
import TermRewriting.Search.Choice

/-! The answers of a search as a plain list. A search that asks for no inherited options has the same
answers whatever the journal is; they can be computed part by part. -/

namespace TermRewriting.Search

variable {α β : Type}

/-- The answers of a search whose patterns have inherited nothing so far. -/
@[grind =]
def values : Search α → List α
  | .done => []
  | .found a next => a :: values (next ())
  | .note _ next => values (next ())
  | .inherit _ declared next => values (next declared)

def Closed : Search α → Prop
  | .done => True
  | .found _ next | .note _ next => Closed (next ())
  | .inherit _ _ _ => False

theorem answers_of_closed {s : Search α} (h : s.Closed) (j : Journal) : (s.answers j).1 = s.values := by
  induction s generalizing j with
  | done => rfl
  | found a next ih => simp [answers, values, ih () h]
  | note n next ih => exact ih () h _
  | inherit p declared next ih => exact h.elim

@[simp] theorem values_done : (done : Search α).values = [] := rfl

@[simp] theorem values_one (a : α) : (one a).values = [a] := rfl

@[simp] theorem values_append (s : Search α) (t : Unit → Search α) :
    (s.append t).values = s.values ++ (t ()).values := by
  induction s with
  | done => rfl
  | found a next ih => simp [append, values, ih]
  | note n next ih => simp [append, values, ih]
  | inherit p declared next ih => simp [append, values, ih]

@[simp] theorem values_bind (s : Search α) (f : α → Search β) :
    (s.bind f).values = s.values.flatMap fun a => (f a).values := by
  induction s with
  | done => rfl
  | found a next ih => simp [Search.bind, values, ih]
  | note n next ih => simp [Search.bind, values, ih]
  | inherit p declared next ih => simp [Search.bind, values, ih]

@[simp] theorem values_map (f : α → β) (s : Search α) : (s.map f).values = s.values.map f := by
  rw [map_eq_bind, values_bind, List.map_eq_flatMap]
  rfl

@[simp] theorem values_filter (holds : α → Bool) (s : Search α) :
    (s.filter holds).values = s.values.filter holds := by
  induction s with
  | done => rfl
  | found a next ih => by_cases h : holds a <;> simp [filter, values, h, ih]
  | note n next ih => simp [filter, values, ih]
  | inherit p declared next ih => simp [filter, values, ih]

@[simp] theorem values_barring (s : Search α) (t : Unit → Search β) :
    (s.barring t).values = if s.values.isEmpty then (t ()).values else [] := by
  induction s with
  | done => simp [barring, values]
  | found a next ih => simp [barring, values]
  | note n next ih => simp [barring, values, ih]
  | inherit p declared next ih => simp [barring, values, ih]

@[simp] theorem values_ofList (as : List α) : (ofList as).values = as := by
  induction as with
  | nil => rfl
  | cons a as ih => simp [ofList, values, ih]

@[simp] theorem values_ofOption (o : Option α) : (ofOption o).values = o.toList := by cases o <;> rfl

theorem values_ite (c : Prop) [Decidable c] (s t : Search α) :
    (if c then s else t).values = if c then s.values else t.values := apply_ite values ..

@[simp] theorem values_listing (least most : Nat) (s : Search α) : (listing least most s).values = s.values := by
  unfold listing
  split <;> rfl

@[simp] theorem values_thread_nil (step : β → α → Search β) (b : β) :
    (thread step [] b).values = [b] := rfl

@[simp] theorem values_thread_cons (step : β → α → Search β) (a : α) (as : List α) (b : β) :
    (thread step (a :: as) b).values = (step b a).values.flatMap fun b => (thread step as b).values := by
  simp [thread]

/-- Steps in turn come to the same states if each does from where the ones before it lead. -/
theorem mem_values_thread_iff {α σ : Type} {f g : σ → α → Search σ} {I : List α → σ → Prop}
    (each : ∀ a as b, I (a :: as) b → ∀ γ,
      (γ ∈ (f b a).values ↔ γ ∈ (g b a).values) ∧ (γ ∈ (f b a).values → I as γ))
    {as : List α} {b β : σ} (start : I as b) :
    (β ∈ (thread f as b).values ↔ β ∈ (thread g as b).values) ∧
      (β ∈ (thread f as b).values → I [] β) := by
  induction as generalizing b with
  | nil =>
    refine ⟨Iff.rfl, fun member => ?_⟩
    obtain rfl := List.mem_singleton.mp member
    exact start
  | cons a as ih =>
    simp only [values_thread_cons, List.mem_flatMap]
    have now := each a as b start
    refine ⟨⟨?_, ?_⟩, ?_⟩
    · rintro ⟨γ, member, later⟩
      exact ⟨γ, (now γ).1.mp member, (ih ((now γ).2 member)).1.mp later⟩
    · rintro ⟨γ, member, later⟩
      have first := (now γ).1.mpr member
      exact ⟨γ, first, (ih ((now γ).2 first)).1.mpr later⟩
    · rintro ⟨γ, member, later⟩
      exact (ih ((now γ).2 member)).2 later

theorem thread_map {α ι σ : Type} (step : σ → ι → Search σ) (f : α → ι) (as : List α) (b : σ) :
    thread step (as.map f) b = thread (fun b a => step b (f a)) as b := by
  induction as generalizing b with
  | nil => rfl
  | cons a as ih => simp only [List.map_cons, thread, ih]

/-- Asks only for options with the property, whatever the answers are. -/
def AsksOnly (P : Position → Options → Prop) : Search α → Prop
  | .done => True
  | .found _ next | .note _ next => AsksOnly P (next ())
  | .inherit cell declared next => P cell declared ∧ ∀ options, AsksOnly P (next options)

theorem closed_iff_asksOnly {s : Search α} : s.Closed ↔ s.AsksOnly fun _ _ => False := by
  induction s with
  | done => exact Iff.rfl
  | found a next ih | note n next ih => exact ih ()
  | inherit p declared next ih => exact ⟨False.elim, fun h => h.1⟩

variable {P Q : Position → Options → Prop}

theorem AsksOnly.imp {s : Search α} (h : s.AsksOnly P) (imp : ∀ cell declared, P cell declared → Q cell declared) :
    s.AsksOnly Q := by
  induction s with
  | done => trivial
  | found a next ih | note n next ih => exact ih () h
  | inherit p declared next ih => exact ⟨imp p declared h.1, fun options => ih options (h.2 options)⟩

theorem Closed.asksOnly {s : Search α} (h : s.Closed) : s.AsksOnly P :=
  (closed_iff_asksOnly.mp h).imp fun _ _ => False.elim

theorem asksOnly_of_forall (s : Search α) (h : ∀ cell declared, P cell declared) : s.AsksOnly P := by
  induction s with
  | done => trivial
  | found a next ih | note n next ih => exact ih ()
  | inherit p declared next ih => exact ⟨h p declared, ih⟩

@[simp] theorem asksOnly_done : (done : Search α).AsksOnly P := trivial

@[simp] theorem asksOnly_one (a : α) : (one a).AsksOnly P := trivial

theorem AsksOnly.append {s : Search α} {t : Unit → Search α} (hs : s.AsksOnly P)
    (ht : (t ()).AsksOnly P) : (s.append t).AsksOnly P := by
  induction s with
  | done => exact ht
  | found a next ih | note n next ih => exact ih () hs
  | inherit p declared next ih => exact ⟨hs.1, fun options => ih options (hs.2 options)⟩

theorem AsksOnly.bind {s : Search α} {f : α → Search β} (hs : s.AsksOnly P)
    (hf : ∀ a, (f a).AsksOnly P) : (s.bind f).AsksOnly P := by
  induction s with
  | done => trivial
  | found a next ih => exact (hf a).append (ih () hs)
  | note n next ih => exact ih () hs
  | inherit p declared next ih => exact ⟨hs.1, fun options => ih options (hs.2 options)⟩

theorem AsksOnly.map {s : Search α} (hs : s.AsksOnly P) (f : α → β) : (s.map f).AsksOnly P := by
  rw [map_eq_bind]
  exact hs.bind fun a => asksOnly_one (f a)

theorem AsksOnly.filter {s : Search α} (hs : s.AsksOnly P) (holds : α → Bool) :
    (s.filter holds).AsksOnly P := by
  induction s with
  | done => trivial
  | found a next ih =>
    have later := ih () hs
    by_cases h : holds a <;> simpa [Search.filter, h, AsksOnly] using later
  | note n next ih => exact ih () hs
  | inherit p declared next ih => exact ⟨hs.1, fun options => ih options (hs.2 options)⟩

theorem AsksOnly.barring {s : Search α} {t : Unit → Search β} (hs : s.AsksOnly P)
    (ht : (t ()).AsksOnly P) : (s.barring t).AsksOnly P := by
  induction s with
  | done => exact ht
  | found a next ih => trivial
  | note n next ih => exact ih () hs
  | inherit p declared next ih => exact ⟨hs.1, fun options => ih options (hs.2 options)⟩

theorem asksOnly_ofList (as : List α) : (ofList as).AsksOnly P := by
  induction as with
  | nil => trivial
  | cons a as ih => exact ih

theorem asksOnly_ofOption (o : Option α) : (ofOption o).AsksOnly P := by cases o <;> exact trivial

theorem asksOnly_ite {c : Prop} [Decidable c] {s t : Search α} (hs : c → s.AsksOnly P)
    (ht : ¬c → t.AsksOnly P) : (if c then s else t).AsksOnly P := by
  split
  · next h => exact hs h
  · next h => exact ht h

theorem asksOnly_thread {step : β → α → Search β} {as : List α}
    (h : ∀ a ∈ as, ∀ b, (step b a).AsksOnly P) (b : β) : (thread step as b).AsksOnly P := by
  induction as generalizing b with
  | nil => trivial
  | cons a as ih =>
    exact (h a (by simp) b).bind fun b => ih (fun c member => h c (by simp [member])) b

theorem asksOnly_runs (xs : List α) (least : Nat) (most : Option Nat) (anyStart shortestFirst : Bool) :
    (runs xs least most anyStart shortestFirst).AsksOnly P :=
  (asksOnly_ofList _).bind fun _ => (asksOnly_ofList _).map _

theorem asksOnly_choose (fits : α → Bool) (xs : List α) (n : Nat) :
    (choose fits xs n).AsksOnly P := by
  induction xs generalizing n with
  | nil => cases n <;> exact trivial
  | cons x xs ih =>
    cases n with
    | zero => trivial
    | succ n =>
      refine asksOnly_ite (fun _ => asksOnly_done) fun _ => AsksOnly.append ?_ ((ih (n + 1)).map _)
      exact asksOnly_ite (fun _ => (ih n).map _) fun _ => asksOnly_done

theorem AsksOnly.listing {s : Search α} (h : s.AsksOnly P) (least most : Nat) :
    (listing least most s).AsksOnly P := asksOnly_ite (fun _ => h) fun _ => h

theorem asksOnly_subsets (fits : α → Bool) (xs : List α) (least : Nat) (most : Option Nat)
    (shortestFirst : Bool) : (subsets fits xs least most shortestFirst).AsksOnly P :=
  ((asksOnly_ofList _).bind fun _ => (asksOnly_choose ..).map _).listing ..

theorem asksOnly_arrangements (n : Nat) (xs : List α) : (arrangements n xs).AsksOnly P := by
  induction n generalizing xs with
  | zero => trivial
  | succ n ih => exact (asksOnly_ofList _).bind fun (_, rest) => (ih rest).map _

theorem asksOnly_permutations (xs : List α) : (permutations xs).AsksOnly P := asksOnly_arrangements ..

end TermRewriting.Search
