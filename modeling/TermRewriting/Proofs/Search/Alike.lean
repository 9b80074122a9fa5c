import Mathlib.Data.List.Forall2
import TermRewriting.Proofs.Search.Choice
import TermRewriting.Proofs.Search.Values

/-! Searches whose answers are related one by one. Every way to build a search from others takes
related searches to related ones. -/

namespace TermRewriting.Search

variable {α α' β β' γ ι ι' : Type} {R : α → α' → Prop} {Q : β → β' → Prop} {T : ι → ι' → Prop}
  {s : Search α} {s' : Search α'}

/-- The answers of the one are related to the answers of the other, in their order. -/
def Alike (R : α → α' → Prop) (s : Search α) (s' : Search α') : Prop :=
  List.Forall₂ R s.values s'.values

theorem alike_done : Alike R done done := .nil

theorem alike_one {a : α} {a' : α'} (related : R a a') : Alike R (one a) (one a') := .cons related .nil

theorem Alike.ite {c c' : Prop} [Decidable c] [Decidable c'] (same : c ↔ c') {t : Search α}
    {t' : Search α'} (yes : c → Alike R s s') (no : Alike R t t') :
    Alike R (if c then s else t) (if c' then s' else t') := by
  by_cases h : c
  · rw [if_pos h, if_pos (same.mp h)]
    exact yes h
  · rw [if_neg h, if_neg (mt same.mpr h)]
    exact no

theorem Alike.append (h : Alike R s s') {t : Unit → Search α} {t' : Unit → Search α'}
    (later : Alike R (t ()) (t' ())) : Alike R (s.append t) (s'.append t') := by
  unfold Alike
  rw [values_append, values_append]
  exact List.rel_append h later

theorem Alike.bind (h : Alike R s s') {k : α → Search β} {k' : α' → Search β'}
    (each : ∀ a ∈ s.values, ∀ a', R a a' → Alike Q (k a) (k' a')) : Alike Q (s.bind k) (s'.bind k') := by
  unfold Alike at h ⊢
  rw [values_bind, values_bind]
  generalize s.values = as, s'.values = as' at h each
  induction h with
  | nil => exact .nil
  | cons related _ ih =>
    simp only [List.flatMap_cons]
    exact List.rel_append (each _ List.mem_cons_self _ related)
      (ih fun a member => each a (List.mem_cons_of_mem _ member))

theorem Alike.map (h : Alike R s s') {f : α → β} {f' : α' → β'} (each : ∀ a a', R a a' → Q (f a) (f' a')) :
    Alike Q (s.map f) (s'.map f') := by
  rw [map_eq_bind, map_eq_bind]
  exact h.bind fun a _ a' related => alike_one (each a a' related)

theorem Alike.barring {t : Unit → Search β} {t' : Unit → Search β'} (h : Alike R s s')
    (later : Alike Q (t ()) (t' ())) : Alike Q (s.barring t) (s'.barring t') := by
  have empty : s.values.isEmpty = s'.values.isEmpty := by
    rw [Bool.eq_iff_iff, List.isEmpty_iff_length_eq_zero, List.isEmpty_iff_length_eq_zero, h.length_eq]
  unfold Alike
  rw [values_barring, values_barring, empty]
  split
  · exact later
  · exact .nil

theorem Alike.thread {step : β → ι → Search β} {step' : β' → ι' → Search β'} {as : List ι}
    {as' : List ι'} (items : List.Forall₂ T as as')
    (each : ∀ a a', T a a' → ∀ b b', Q b b' → Alike Q (step b a) (step' b' a')) {b : β} {b' : β'}
    (start : Q b b') : Alike Q (thread step as b) (thread step' as' b') := by
  induction items generalizing b b' with
  | nil => exact alike_one start
  | cons first _ ih => exact (each _ _ first b b' start).bind fun c _ c' related => ih related

theorem forall₂_of_map_eq {f : α → γ} {f' : α' → γ} {as : List α} {as' : List α'}
    (eq : as.map f = as'.map f') : List.Forall₂ (fun a a' => f a = f' a') as as' := by
  rwa [← List.forall₂_eq_eq_eq, List.forall₂_map_left_iff, List.forall₂_map_right_iff] at eq

theorem alike_of_map_eq {f : α → γ} {f' : α' → γ} (eq : s.map f = s'.map f') :
    Alike (fun a a' => f a = f' a') s s' := by
  have values := congrArg values eq
  rw [values_map, values_map] at values
  exact forall₂_of_map_eq values

end TermRewriting.Search
