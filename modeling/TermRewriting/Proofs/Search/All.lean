import TermRewriting.Proofs.Search.Values
import TermRewriting.Proofs.Search.Visit

/-! What holds of all answers of a search, whatever options its patterns have inherited. -/

namespace TermRewriting.Search

variable {α β κ : Type} {P Q : α → Prop}

def All (P : α → Prop) : Search α → Prop
  | .done => True
  | .found a next => P a ∧ All P (next ())
  | .note _ next => All P (next ())
  | .inherit _ _ next => ∀ options, All P (next options)

@[simp] theorem all_done : All P .done := trivial

@[simp] theorem all_one {a : α} : All P (one a) ↔ P a := by simp [one, All]

@[simp] theorem all_note {n : Notice} {next : Unit → Search α} :
    All P (.note n next) ↔ All P (next ()) := Iff.rfl

theorem All.imp {s : Search α} (h : All P s) (imp : ∀ a, P a → Q a) : All Q s := by
  induction s with
  | done => trivial
  | found a next ih => exact ⟨imp a h.1, ih _ h.2⟩
  | note n next ih => exact ih _ h
  | inherit p declared next ih => exact fun options => ih _ (h options)

theorem All.and {s : Search α} (h : All P s) (h' : All Q s) : All (fun a => P a ∧ Q a) s := by
  induction s with
  | done => trivial
  | found a next ih => exact ⟨⟨h.1, h'.1⟩, ih _ h.2 h'.2⟩
  | note n next ih => exact ih _ h h'
  | inherit p declared next ih => exact fun options => ih _ (h options) (h' options)

theorem all_of_forall (s : Search α) (h : ∀ a, P a) : All P s := by
  induction s with
  | done => trivial
  | found a next ih => exact ⟨h a, ih ()⟩
  | note n next ih => exact ih ()
  | inherit p declared next ih => exact fun options => ih options

theorem all_ite {c : Prop} [Decidable c] {s : Search α} :
    All P (if c then s else .done) ↔ (c → All P s) := by
  split
  · next h => simp [h]
  · next h => simp [h]

@[simp] theorem all_append {s : Search α} {t : Unit → Search α} :
    All P (s.append t) ↔ All P s ∧ All P (t ()) := by
  induction s with
  | done => simp [append]
  | found a next ih => simp [append, All, ih, and_assoc]
  | note n next ih => simp [append, All, ih]
  | inherit p declared next ih =>
    simp only [append, All, ih]
    exact ⟨fun h => ⟨fun o => (h o).1, (h []).2⟩, fun h o => ⟨h.1 o, h.2⟩⟩

@[simp] theorem all_bind {P : β → Prop} {s : Search α} {f : α → Search β} :
    All P (s.bind f) ↔ All (fun a => All P (f a)) s := by
  induction s with
  | done => simp [Search.bind]
  | found a next ih => simp [Search.bind, All, ih]
  | note n next ih => simp [Search.bind, All, ih]
  | inherit p declared next ih => simp [Search.bind, All, ih]

@[simp] theorem all_map {P : β → Prop} {f : α → β} {s : Search α} :
    All P (s.map f) ↔ All (fun a => P (f a)) s := by simp [map_eq_bind]

@[simp] theorem all_ofList {as : List α} : All P (ofList as) ↔ ∀ a ∈ as, P a := by
  induction as with
  | nil => simp [ofList]
  | cons a as ih => simp [ofList, All, ih]

@[simp] theorem all_ofOption {o : Option α} : All P (ofOption o) ↔ ∀ a, o = some a → P a := by
  cases o <;> simp [ofOption]

@[simp] theorem all_listing {least most : Nat} {s : Search α} : All P (listing least most s) ↔ All P s := by
  unfold listing
  split <;> rfl

theorem All.filter {s : Search α} (h : All P s) (holds : α → Bool) : All P (s.filter holds) := by
  induction s with
  | done => trivial
  | found a next ih =>
    have later := ih () h.2
    by_cases keep : holds a
    · simpa [Search.filter, keep, All, later] using h.1
    · simpa [Search.filter, keep] using later
  | note n next ih => exact ih _ h
  | inherit p declared next ih => exact fun options => ih _ (h options)

theorem all_barring {P : β → Prop} {t : Unit → Search β} (h : All P (t ())) (s : Search α) :
    All P (s.barring t) := by
  induction s with
  | done => exact h
  | found a next ih => trivial
  | note n next ih => exact ih ()
  | inherit p declared next ih => exact fun options => ih options

/-- What relates the states before and after each step relates those before and after all. -/
theorem all_thread {R : β → β → Prop} (refl : ∀ b, R b b) (trans : ∀ b c d, R b c → R c d → R b d)
    {step : β → α → Search β} {as : List α} (each : ∀ a ∈ as, ∀ b, All (R b) (step b a)) (b : β) :
    All (R b) (thread step as b) := by
  induction as generalizing b with
  | nil => exact all_one.mpr (refl b)
  | cons a as ih =>
    refine all_bind.mpr ((each a (by simp) b).imp fun c now => ?_)
    exact (ih (fun a member => each a (by simp [member])) c).imp fun d later => trans b c d now later

theorem All.answers {s : Search α} (h : All P s) (j : Journal) : ∀ a ∈ (s.answers j).1, P a := by
  induction s generalizing j with
  | done => simp [Search.answers]
  | found a next ih =>
    simp only [Search.answers, List.mem_cons, forall_eq_or_imp]
    exact ⟨h.1, ih () h.2 j⟩
  | note n next ih => exact ih () h _
  | inherit p declared next ih => exact ih _ (h _) _

theorem All.values {s : Search α} (h : All P s) : ∀ a ∈ s.values, P a := by
  induction s with
  | done => simp
  | found a next ih => exact List.forall_mem_cons.mpr ⟨h.1, ih () h.2⟩
  | note n next ih => exact ih () h
  | inherit p declared next ih => exact ih declared (h declared)

theorem all_of_closed {s : Search α} (closed : s.Closed) (h : ∀ a ∈ s.values, P a) : All P s := by
  induction s with
  | done => trivial
  | found a next ih =>
    rw [values, List.forall_mem_cons] at h
    exact ⟨h.1, ih () closed h.2⟩
  | note n next ih => exact ih () closed h
  | inherit p declared next => exact closed.elim

/-- What follows an answer need only be as asked for where the answers are as they are. -/
theorem AsksOnly.bind_of_all {A : Position → Options → Prop} {s : Search α} {f : α → Search β}
    (hs : s.AsksOnly A) (all : All P s) (hf : ∀ a, P a → (f a).AsksOnly A) : (s.bind f).AsksOnly A := by
  induction s with
  | done => trivial
  | found a next ih => exact (hf a all.1).append (ih () hs all.2)
  | note n next ih => exact ih () hs all
  | inherit p declared next ih => exact ⟨hs.1, fun options => ih options (hs.2 options) (all options)⟩

theorem visit_congr {s : Search α} {k k' : α → Visit κ} (h : All (fun a => k a = k' a) s) :
    s.visit k = s.visit k' := by
  induction s with
  | done => rfl
  | found a next ih => simp only [visit, h.1, ih _ h.2]
  | note n next ih => simp only [visit, ih _ h]
  | inherit p declared next ih => simp only [visit, fun o => ih o (h o)]

end TermRewriting.Search
