import TermRewriting.Proofs.Matching.Row

/-! What matching does to the bindings. It only ever binds a variable of the pattern that is not
bound yet and not just excluded, or an option; what survives both survives every match. -/

namespace TermRewriting

namespace Pattern

mutual

/-- The variables that a match of the pattern may bind. What is excluded binds none. -/
def binds : Pattern → List String
  | .named name inner => name :: inner.binds
  | .optional inner _ | .hold inner | .test inner _ | .condition inner _ | .repeated inner _ _ =>
    inner.binds
  | .alternatives choices => bindsOfAll choices
  | .except _ fallback => fallback.binds
  | .compound head elements => head.binds ++ bindsOfAll elements
  | .wildcard _ _ | .verbatim _ | .options _ _ | .literal _ => []

def bindsOfAll : List Pattern → List String
  | [] => []
  | p :: ps => p.binds ++ bindsOfAll ps

end

theorem mem_bindsOfAll {ps : List Pattern} {x : String} : x ∈ bindsOfAll ps ↔ ∃ p ∈ ps, x ∈ p.binds := by
  induction ps with
  | nil => simp [bindsOfAll]
  | cons p ps ih => simp [bindsOfAll, ih]

theorem binds_subset_names (p : Pattern) : p.binds ⊆ p.names := by
  have ofAll {ps : List Pattern} (each : ∀ p ∈ ps, p.binds ⊆ p.names) : bindsOfAll ps ⊆ namesOfAll ps := by
    intro x bound
    obtain ⟨p, member, bound⟩ := mem_bindsOfAll.mp bound
    exact mem_namesOfAll.mpr ⟨p, member, each p member bound⟩
  induction p using Pattern.induct with
  | named name inner ih => exact List.cons_subset_cons name ih
  | optional _ _ ih | hold _ ih | test _ _ ih | condition _ _ ih | repeated _ _ _ ih => exact ih
  | alternatives choices ih => exact ofAll ih
  | except excluded fallback _ ih => exact List.Subset.trans ih (List.subset_append_right ..)
  | compound head elements head_ih ih =>
    exact List.append_subset.mpr ⟨List.Subset.trans head_ih (List.subset_append_left ..),
      List.Subset.trans (ofAll ih) (List.subset_append_right ..)⟩
  | wildcard | verbatim | options | literal => exact List.Subset.refl _

end Pattern

/-- A relation of bindings to later ones that holds over each binding made while matching a pattern
with these variables. -/
structure Bindings.Steps (names : List String) (R : Bindings → Bindings → Prop) : Prop where
  refl : ∀ b, R b b
  trans : ∀ b c d, R b c → R c d → R b d
  bind : ∀ b, ∀ x ∈ names, ∀ v, b.get? x = none → R b (b.bind x v)
  bindOption : ∀ b x v, R b (b.bindOption x v)

namespace Bindings.Steps

variable {names names' : List String} {R : Bindings → Bindings → Prop}

theorem mono (h : Steps names' R) (sub : names ⊆ names') : Steps names R :=
  { h with bind := fun b x member => h.bind b x (sub member) }

theorem bindOptions (h : Steps names R) (options : Options) (b : Bindings) :
    R b (b.bindOptions options) := by
  induction options generalizing b with
  | nil => exact h.refl b
  | cons entry options ih => exact h.trans _ _ _ (h.bindOption b entry.1 entry.2) (ih _)

theorem get? {x : String} (other : x ∉ names) (unmarked : optionOf? x = none) :
    Steps names fun b m => m.get? x = b.get? x where
  refl _ := rfl
  trans _ _ _ now later := later.trans now
  bind b y member v _ := by
    rw [get?_bind, if_neg]
    rintro rfl
    exact other member
  bindOption b y v := by
    rw [Bindings.bindOption, get?_bind, if_neg]
    rintro rfl
    simpa [unmarked] using optionOf?_optionMark_append y

end Bindings.Steps

/-- Whatever it is matched against, the bindings after it are related to those before. -/
def Matcher.Keeps (R : Bindings → Bindings → Prop) (matcher : Matcher) : Prop :=
  ∀ c t b, Search.All (fun m => R b m.bindings) (matcher c t b)

namespace Siblings

variable {R : Bindings → Bindings → Prop}

theorem all_distribute (refl : ∀ b, R b b) (trans : ∀ b c d, R b c → R c d → R b d)
    {elements : List (Element Matcher)} (keeps : ∀ e ∈ elements, e.matcher.Keeps R) (s : Siblings)
    (first : Bool) (items : List Term) (b : Bindings) :
    Search.All (fun m => R b m.bindings) (s.distribute first elements items b) := by
  induction elements generalizing first items b with
  | nil =>
    rw [distribute]
    split
    · exact Search.all_done
    · exact Search.all_one.mpr (refl b)
  | cons e later ih =>
    simp only [distribute, Search.all_bind, Search.all_map]
    refine Search.all_of_forall _ fun split => Search.all_of_forall _ fun t => ?_
    refine (keeps e (by simp) _ t b).imp fun m now => ?_
    exact (ih (fun e member => keeps e (by simp [member])) false split.after m.bindings).imp
      fun rest later => trans _ _ _ now later

end Siblings

namespace Pattern

variable {ev : Evaluator} {R : Bindings → Bindings → Prop}

theorem keeps_matchCompound (refl : ∀ b, R b b) (trans : ∀ b c d, R b c → R c d → R b d)
    {head : Pattern} {headMatcher : Matcher} {elements : List (Element Matcher)}
    (headKeeps : headMatcher.Keeps R) (keeps : ∀ e ∈ elements, e.matcher.Keeps R) (whole : Bool)
    (t : Term) (b : Bindings) :
    Search.All (fun m => R b m.bindings) (matchCompound ev head headMatcher elements whole t b) := by
  have application :
      Search.All (fun m => R b m.bindings)
        (matchApplication headMatcher elements (head.attributes ev) whole t b) := by
    unfold matchApplication
    split
    · split
      · refine Search.all_bind.mpr ((headKeeps ..).imp fun m now => ?_)
        exact (Siblings.all_distribute refl trans (fun e h => keeps e (Element.mem_inOrder h)) ..).imp
          fun rest later => trans _ _ _ now later
      · exact Search.all_done
    · exact Search.all_done
  have lone : Search.All (fun m => R b m.bindings) (matchLone head.literal? elements t b) := by
    unfold matchLone
    split
    · exact Search.all_done
    · split
      · exact Search.all_done
      · exact Search.all_map.mpr (Search.all_thread refl trans
          (fun e member b => Search.all_map.mpr (keeps e member ..)) b)
  unfold matchCompound
  dsimp only
  split
  · exact Search.all_done
  · refine Search.all_append.mpr ⟨application, ?_⟩
    split
    · exact lone
    · exact Search.all_done

theorem all_searchAny {P : Match → Prop} {ps : List Pattern} {c : Context} {t : Term} {b : Bindings}
    (each : ∀ p ∈ ps, Search.All P (search ev p c t b)) : Search.All P (searchAny ev ps c t b) := by
  induction ps with
  | nil => exact Search.all_done
  | cons p ps ih =>
    exact Search.all_append.mpr ⟨each p (by simp), ih fun q member => each q (by simp [member])⟩

/-- What each binding keeps is kept by every match. -/
theorem keeps_search_binds (p : Pattern) (steps : Bindings.Steps p.binds R) : (search ev p).Keeps R := by
  induction p using Pattern.induct with
  | wildcard span head =>
    intro c t b
    cases span <;>
      · rw [search]
        split
        · exact Search.all_one.mpr (steps.refl b)
        · exact Search.all_done
  | named name inner ih =>
    have keeps := ih (steps.mono (List.subset_cons_self ..))
    intro c t b
    rw [search, Search.all_bind]
    refine Search.all_of_forall _ fun value => ?_
    split
    · split
      · exact keeps c t b
      · exact Search.all_done
    · next free =>
      refine (keeps c t _).imp fun m later => ?_
      exact steps.trans _ _ _ (steps.bind b name List.mem_cons_self value free) later
  | optional inner inline ih =>
    intro c t b
    rw [search, Search.all_bind]
    exact Search.all_of_forall _ fun value => ih steps {} value b
  | alternatives choices ih =>
    refine fun c t b => all_searchAny fun p member => ih p member (steps.mono fun x named => ?_) c t b
    exact mem_bindsOfAll.mpr ⟨p, member, named⟩
  | except excluded fallback _ ih =>
    exact fun c t b => Search.all_barring (ih steps c t b) _
  | verbatim v | literal v =>
    intro c t b
    rw [search]
    split
    · exact Search.all_one.mpr (steps.refl b)
    · exact Search.all_done
  | hold inner ih => exact ih steps
  | test inner predicate ih => exact fun c t b => (ih steps _ t b).filter _
  | condition inner guard ih => exact fun c t b => (ih steps c t b).filter _
  | repeated inner least most ih =>
    intro c t b
    rw [search]
    split
    · exact Search.all_map.mpr (Search.all_thread steps.refl steps.trans
        (fun item _ b => Search.all_map.mpr (ih steps {} item b)) b)
    · exact Search.all_done
  | options cell explicit =>
    intro c t b
    rw [search, Search.all_bind]
    refine Search.all_of_forall _ fun options => ?_
    split
    · exact Search.all_one.mpr (steps.bindOptions _ b)
    · exact Search.all_done
  | compound head elements head_ih ih =>
    have headKeeps := head_ih (steps.mono (List.subset_append_left ..))
    intro c t b
    refine keeps_matchCompound steps.refl steps.trans headKeeps (fun e member => ?_) ..
    obtain ⟨inElements, eq⟩ := mem_elementsFrom member
    rw [eq]
    refine ih _ inElements (steps.mono fun x named => ?_)
    exact List.mem_append_right _ (mem_bindsOfAll.mpr ⟨_, inElements, named⟩)

theorem keeps_search (p : Pattern) (steps : Bindings.Steps p.names R) : (search ev p).Keeps R :=
  keeps_search_binds p (steps.mono (binds_subset_names p))

end Pattern

end TermRewriting
