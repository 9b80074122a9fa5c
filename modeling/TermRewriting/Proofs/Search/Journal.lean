import TermRewriting.Proofs.Search.Values

/-! Computations that cannot be told apart from two journals. A journal has an influence only where a
search asks for inherited options; nothing ever looks at the notices. -/

namespace TermRewriting

variable {α β : Type} {Q : List (Position × Options) → List (Position × Options) → Prop}

namespace Journal

/-- From journals that have inherited related options, the computations come to the same result, and
to journals that have again. -/
def Corresponds (Q : List (Position × Options) → List (Position × Options) → Prop)
    (m m' : StateM Journal α) : Prop :=
  ∀ j j', Q j.inherited j'.inherited →
    (m j).1 = (m' j').1 ∧ Q (m j).2.inherited (m' j').2.inherited

theorem corresponds_pure (a : α) : Corresponds Q (pure a) (pure a) := fun _ _ related => ⟨rfl, related⟩

theorem Corresponds.bind {m m' : StateM Journal α} {f f' : α → StateM Journal β}
    (h : Corresponds Q m m') (each : ∀ a, Corresponds Q (f a) (f' a)) :
    Corresponds Q (m >>= f) (m' >>= f') := by
  intro j j' related
  obtain ⟨same, after⟩ := h j j' related
  have next := each (m j).1 _ _ after
  change (f (m j).1 (m j).2).1 = (f' (m' j').1 (m' j').2).1 ∧
    Q (f (m j).1 (m j).2).2.inherited (f' (m' j').1 (m' j').2).2.inherited
  rw [← same]
  exact next

theorem Corresponds.ite {m m' l l' : StateM Journal α} (c : Prop) [Decidable c]
    (h : Corresponds Q m m') (otherwise : Corresponds Q l l') :
    Corresponds Q (if c then m else l) (if c then m' else l') := by
  split
  · exact h
  · exact otherwise

theorem corresponds_note (n n' : Notice) :
    Corresponds Q (modify fun j => j.note n) (modify fun j => j.note n') :=
  fun _ _ related => ⟨rfl, related⟩

theorem corresponds_inherit (cell : Position) (declared : Options) :
    Corresponds Eq (fun j => j.inherit cell declared) fun j => j.inherit cell declared := by
  intro j j' same
  simp only [inherit, same]
  cases j'.inherited.lookup cell <;> exact ⟨rfl, by simp [same]⟩

end Journal

namespace Search

open Journal (Corresponds)

/-- Asks for inherited options only where related journals answer alike. -/
def Respects (Q : List (Position × Options) → List (Position × Options) → Prop) (s : Search α) : Prop :=
  s.AsksOnly fun cell declared =>
    Corresponds Q (fun j => j.inherit cell declared) fun j => j.inherit cell declared

theorem respects_eq (s : Search α) : s.Respects Eq := s.asksOnly_of_forall Journal.corresponds_inherit

theorem Closed.respects {s : Search α} (h : s.Closed) : s.Respects Q := h.asksOnly

theorem Respects.runFrom {s : Search α} (h : s.Respects Q) (strategy : Strategy α) (seen : Array α)
    {j j' : Journal} (related : Q j.inherited j'.inherited) :
    (s.runFrom strategy seen j).seen = (s.runFrom strategy seen j').seen ∧
      (s.runFrom strategy seen j).stop = (s.runFrom strategy seen j').stop ∧
      Q (s.runFrom strategy seen j).journal.inherited (s.runFrom strategy seen j').journal.inherited := by
  induction s generalizing seen j j' with
  | done => exact ⟨rfl, rfl, related⟩
  | found a next ih =>
    simp only [Search.runFrom]
    cases strategy (seen.push a) with
    | some reason => exact ⟨rfl, rfl, related⟩
    | none => exact ih () h (seen.push a) related
  | note n next ih => exact ih () h seen related
  | inherit cell declared next ih =>
    obtain ⟨same, after⟩ := h.1 j j' related
    have later := ih (j.inherit cell declared).1 (h.2 _) seen after
    simp only [Search.runFrom]
    rw [← same]
    exact later

theorem Respects.first? {s : Search α} (h : s.Respects Q) : Corresponds Q s.first? s.first? := by
  intro j j' related
  obtain ⟨seen, -, after⟩ := h.runFrom (.upTo 1 .found) #[] related
  exact ⟨congrArg (·[0]?) seen, after⟩

theorem Respects.collect {s : Search α} (h : s.Respects Q) (limit : Option Nat) :
    Corresponds Q (s.collect limit) (s.collect limit) := by
  intro j j' related
  by_cases none : limit = some 0
  · exact none ▸ ⟨rfl, related⟩
  · obtain ⟨seen, -, after⟩ := h.runFrom (limit.elim .all (.upTo · .limit)) #[] related
    simp only [Search.collect, if_neg none]
    exact ⟨congrArg Array.toList seen, after⟩

end Search

end TermRewriting
