import Mathlib.Data.Nat.Find
import TermRewriting.Proofs.Replace.Iteration
import TermRewriting.Proofs.Term.Part

/-! Replacement everywhere replaces the outermost parts to which a rule applies, each by what the first
such rule makes of it. Nothing else changes, but an argument in which something was replaced stands for
its items if it has become a sequence. -/

namespace TermRewriting

namespace Term

/-- Something is found for the part along the path. -/
def Replaceable (find : Term → Option Term) (t : Term) (path : Path) : Prop :=
  ((t.part? path).bind find).isSome = true

instance (find : Term → Option Term) (t : Term) (path : Path) : Decidable (t.Replaceable find path) :=
  inferInstanceAs (Decidable (_ = true))

/-- Something is found for the part along the path, and for no part that it is in. -/
def Outermost (find : Term → Option Term) (t : Term) (path : Path) : Prop :=
  t.Replaceable find path ∧ ∀ n < path.length, ¬t.Replaceable find (path.take n)

instance (find : Term → Option Term) (t : Term) (path : Path) : Decidable (t.Outermost find path) :=
  inferInstanceAs (Decidable (_ ∧ _))

/-- What is found for the part along the path, if that part is outermost. -/
def outermost? (find : Term → Option Term) (t : Term) (path : Path) : Option Term :=
  if t.Outermost find path then (t.part? path).bind find else none

def touched (new : Path → Option Term) (t : Term) : Bool :=
  (t.paths true).any fun path => (new path).isSome

def touchedFrom (new : Path → Option Term) (number : Nat) (ts : List Term) : Bool :=
  (pathsFrom true number ts).any fun path => (new path).isSome

mutual

/-- The term with new parts along some paths; nothing is looked for in a new part. An argument stands
for its items where that is asked for. -/
def replaceParts (splices : (Path → Option Term) → Term → Bool) (new : Path → Option Term) : Term → Term
  | .app head args =>
    (new []).getD (.app (replaceParts splices (fun path => new (0 :: path)) head)
      (replacePartsFrom splices new 1 args))
  | t => (new []).getD t

def replacePartsFrom (splices : (Path → Option Term) → Term → Bool) (new : Path → Option Term)
    (number : Nat) : List Term → List Term
  | [] => []
  | t :: ts =>
    let inside := fun path => new (number :: path)
    let u := replaceParts splices inside t
    (if splices inside t then u.items else [u]) ++ replacePartsFrom splices new (number + 1) ts

end

variable {find : Term → Option Term} {new : Path → Option Term}

theorem exists_outermost {t : Term} {path : Path} (found : t.Replaceable find path) :
    ∃ n ≤ path.length, t.Outermost find (path.take n) := by
  have some : ∃ n, t.Replaceable find (path.take n) := ⟨path.length, by rwa [List.take_length]⟩
  have least : Nat.find some ≤ path.length := Nat.find_min' some (by rwa [List.take_length])
  refine ⟨Nat.find some, least, Nat.find_spec some, fun n less => ?_⟩
  have shorter : n < Nat.find some := lt_of_lt_of_le less (List.length_take_le ..)
  rw [List.take_take, Nat.min_eq_left (Nat.le_of_lt shorter)]
  exact Nat.find_min some shorter

theorem touched_outermost? {t : Term} :
    touched (t.outermost? find) t = true ↔ ∃ path, t.Replaceable find path := by
  simp only [touched, List.any_eq_true, mem_paths, true_or, and_true]
  constructor
  · rintro ⟨path, -, replaced⟩
    refine ⟨path, ?_⟩
    by_cases outer : t.Outermost find path
    · exact outer.1
    · simp [outermost?, outer] at replaced
  · rintro ⟨path, found⟩
    obtain ⟨n, -, outer⟩ := exists_outermost found
    refine ⟨path.take n, ?_, by rw [outermost?, if_pos outer]; exact outer.1⟩
    exact Option.isSome_of_isSome_bind outer.1

theorem outermost?_cons {t u : Term} {n : Nat} (child : t.child? n = some u) (kept : find t = none)
    (path : Path) : t.outermost? find (n :: path) = u.outermost? find path := by
  have part (path : Path) : t.part? (n :: path) = u.part? path := by rw [part?, child, Option.bind_some]
  have outer : t.Outermost find (n :: path) ↔ u.Outermost find path := by
    simp only [Outermost, Replaceable, part]
    refine and_congr_right fun _ => ⟨fun above m less => ?_, fun above m less => ?_⟩
    · simpa [part] using above (m + 1) (Nat.succ_lt_succ less)
    · cases m with
      | zero => simp [part?, kept]
      | succ m => simpa [part] using above m (Nat.lt_of_succ_lt_succ less)
  simp only [outermost?, outer, part]

theorem outermost?_nil (t : Term) : t.outermost? find [] = find t := by
  by_cases found : (find t).isSome = true
  · have outer : t.Outermost find [] := ⟨found, fun _ less => absurd less (Nat.not_lt_zero _)⟩
    rw [outermost?, if_pos outer, part?, Option.bind_some]
  · have none : find t = none := Option.not_isSome_iff_eq_none.mp found
    have outer : ¬t.Outermost find [] := fun h => found h.1
    rw [outermost?, if_neg outer, none]

theorem touchedFrom_cons (number : Nat) (t : Term) (ts : List Term) :
    touchedFrom new number (t :: ts) =
      (touched (fun path => new (number :: path)) t || touchedFrom new (number + 1) ts) := by
  simp [touchedFrom, touched, pathsFrom, List.any_append, List.any_map, Function.comp_def]

theorem touched_app (head : Term) (args : List Term) :
    touched new (.app head args) =
      (touched (fun path => new (0 :: path)) head || touchedFrom new 1 args || (new []).isSome) := by
  simp [touchedFrom, touched, paths, List.any_append, List.any_map, Function.comp_def, Bool.or_assoc]

theorem replacePartsFrom_of_untouched {splices : (Path → Option Term) → Term → Bool}
    (keeps : ∀ new t, touched new t = false → splices new t = false) {ts : List Term}
    (each : ∀ t ∈ ts, ∀ new, touched new t = false → replaceParts splices new t = t) {number : Nat}
    (untouched : touchedFrom new number ts = false) : replacePartsFrom splices new number ts = ts := by
  induction ts generalizing number with
  | nil => rfl
  | cons t ts ih =>
    obtain ⟨first, rest⟩ := Bool.or_eq_false_iff.mp ((touchedFrom_cons ..).symm.trans untouched)
    simp [replacePartsFrom, each t (by simp) _ first, keeps _ _ first,
      ih (fun t member => each t (by simp [member])) rest]

theorem replaceParts_of_untouched {splices : (Path → Option Term) → Term → Bool}
    (keeps : ∀ new t, touched new t = false → splices new t = false) {t : Term}
    (untouched : touched new t = false) : replaceParts splices new t = t := by
  induction t using Term.induct generalizing new with
  | app head args head_ih ih =>
    rw [touched_app, Bool.or_eq_false_iff, Bool.or_eq_false_iff] at untouched
    obtain ⟨⟨inHead, inArgs⟩, here⟩ := untouched
    have here : new [] = none := by simpa using here
    have newArgs := replacePartsFrom_of_untouched keeps (fun t member _ => ih t member) inArgs
    rw [replaceParts, here, Option.getD_none, head_ih inHead, newArgs]
  | _ =>
    have here : new [] = none := by simpa [touched, paths] using untouched
    simp [replaceParts, here]

def rebuilt? (new : Path → Option Term) (t : Term) : Option Term :=
  if touched new t then some (replaceParts touched new t) else none

def rebuiltFrom? (new : Path → Option Term) (number : Nat) (ts : List Term) : Option (List Term) :=
  if touchedFrom new number ts then some (replacePartsFrom touched new number ts) else none

def changedArgs? (t : Term) (ts : List Term) (first : Option Term) (rest : Option (List Term)) :
    Option (List Term) :=
  if first.isNone && rest.isNone then none else some (t.inPlace first ++ rest.getD ts)

theorem getD_rebuilt? (new : Path → Option Term) (t : Term) :
    (rebuilt? new t).getD t = replaceParts touched new t := by
  unfold rebuilt?
  cases untouched : touched new t with
  | true => rfl
  | false => exact (replaceParts_of_untouched (fun _ _ => id) untouched).symm

theorem getD_rebuiltFrom? (new : Path → Option Term) (number : Nat) (ts : List Term) :
    (rebuiltFrom? new number ts).getD ts = replacePartsFrom touched new number ts := by
  unfold rebuiltFrom?
  cases untouched : touchedFrom new number ts with
  | true => rfl
  | false =>
    have each (t : Term) (_ : t ∈ ts) (new : Path → Option Term) (untouched : touched new t = false) :
        replaceParts touched new t = t := replaceParts_of_untouched (fun _ _ => id) untouched
    exact (replacePartsFrom_of_untouched (fun _ _ => id) each untouched).symm

theorem rebuiltFrom?_cons (new : Path → Option Term) (number : Nat) (t : Term) (ts : List Term) :
    rebuiltFrom? new number (t :: ts) =
      changedArgs? t ts (rebuilt? (fun path => new (number :: path)) t) (rebuiltFrom? new (number + 1) ts) := by
  have first := getD_rebuilt? (fun path => new (number :: path)) t
  have rest := getD_rebuiltFrom? new (number + 1) ts
  unfold rebuilt? at first ⊢
  unfold rebuiltFrom? at rest ⊢
  rw [touchedFrom_cons, replacePartsFrom]
  generalize replaceParts touched (fun path => new (number :: path)) t = u at first ⊢
  generalize replacePartsFrom touched new (number + 1) ts = us at rest ⊢
  cases inFirst : touched (fun path => new (number :: path)) t <;>
    cases inRest : touchedFrom new (number + 1) ts <;> simp_all [changedArgs?, inPlace]

theorem rebuilt?_app (new : Path → Option Term) (head : Term) (args : List Term) :
    rebuilt? new (.app head args) =
      (new []).or (changed? head args (rebuilt? (fun path => new (0 :: path)) head)
        (rebuiltFrom? new 1 args)) := by
  have inHead := getD_rebuilt? (fun path => new (0 :: path)) head
  have inArgs := getD_rebuiltFrom? new 1 args
  unfold rebuilt? at inHead ⊢
  unfold rebuiltFrom? at inArgs ⊢
  rw [touched_app, replaceParts]
  generalize replaceParts touched (fun path => new (0 :: path)) head = newHead at inHead ⊢
  generalize replacePartsFrom touched new 1 args = newArgs at inArgs ⊢
  cases here : new [] with
  | some u => simp
  | none =>
    cases touchedHead : touched (fun path => new (0 :: path)) head <;>
      cases touchedArgs : touchedFrom new 1 args <;> simp_all [changed?]

theorem rebuilt?_of_isAtom (new : Path → Option Term) {t : Term} (atom : t.isAtom = true) :
    rebuilt? new t = new [] := by
  cases t with
  | app head args => cases atom
  | _ => cases here : new [] <;> simp [rebuilt?, touched, paths, replaceParts, here]

end Term

namespace Rule

variable {ev : Evaluator} {rules : List Rule} {t : Term}

def first? (ev : Evaluator) (rules : List Rule) (t : Term) : Option Term :=
  rules.findSome? fun r => (r.apply ev t false {}).1

/-- Without inherited options a rule turns a term into the same, whatever was matched before. -/
theorem apply_fst_eq {r : Rule} (explicit : r.lhs.Explicit) (whole : Bool) (j : Journal) :
    (r.apply ev t whole j).1 = (r.apply ev t whole {}).1 :=
  (corresponds_apply (Q := fun _ _ => True) (closed_results explicit whole).respects j {} trivial).1

theorem firstResult_fst (explicit : ∀ r ∈ rules, r.lhs.Explicit) (operation : Operation) (j : Journal) :
    (Replacer.firstResult ev operation t rules j).1 = first? ev rules t := by
  induction rules generalizing j with
  | nil => rfl
  | cons r rules ih =>
    have here : (r.apply ev t false j).1 = (r.apply ev t false {}).1 :=
      apply_fst_eq (explicit r (by simp)) false j
    have later := ih fun r member => explicit r (by simp [member])
    simp only [Replacer.firstResult, bind, StateT.bind, first?, List.findSome?_cons, ← here]
    rcases r.apply ev t false j with ⟨_ | result, after⟩
    · exact later after
    · rfl

end Rule

namespace Replacer

open Term (rebuilt? rebuiltFrom? rebuiltFrom?_cons)

variable {w : Replacer} {find : Term → Option Term}

theorem outermostArgs_cons (t : Term) (ts : List Term) (j : Journal) :
    (w.outermostArgs (t :: ts) j).1 =
      Term.changedArgs? t ts (w.outermost t j).1 (w.outermostArgs ts (w.outermost t j).2).1 := rfl

theorem outermostArgs_fst {ts : List Term} {new : Path → Option Term}
    (each : ∀ t ∈ ts, ∀ j, (w.outermost t j).1 = rebuilt? (t.outermost? find) t) {number : Nat}
    (inside : ∀ i t, ts[i]? = some t → (fun path => new ((number + i) :: path)) = t.outermost? find)
    (j : Journal) : (w.outermostArgs ts j).1 = rebuiltFrom? new number ts := by
  induction ts generalizing number j with
  | nil => rfl
  | cons t ts ih =>
    have here : (fun path => new (number :: path)) = t.outermost? find := inside 0 t rfl
    have later (i : Nat) (u : Term) (found : ts[i]? = some u) :
        (fun path => new ((number + 1 + i) :: path)) = u.outermost? find := by
      simpa [Nat.add_assoc, Nat.add_comm 1] using inside (i + 1) u found
    have first := each t (by simp) j
    have rest := ih (fun u member => each u (by simp [member])) later (w.outermost t j).2
    rw [outermostArgs_cons, first, rest, rebuiltFrom?_cons, here]

theorem outermost_app_fst (head : Term) (args : List Term) (j : Journal) :
    (w.outermost (.app head args) j).1 =
      let after := (w.applyAt (.app head args) j).2
      (w.applyAt (.app head args) j).1.or (Term.changed? head args (w.outermost head after).1
        (w.outermostArgs args (w.outermost head after).2).1) := by
  simp only [outermost, bind, StateT.bind]
  rcases w.applyAt (.app head args) j with ⟨_ | result, after⟩ <;> rfl

/-- The outermost parts for which there is a result are replaced, all at once. -/
theorem outermost_fst (here : ∀ t j, (w.applyAt t j).1 = find t) (t : Term) (j : Journal) :
    (w.outermost t j).1 = rebuilt? (t.outermost? find) t := by
  induction t using Term.induct generalizing j with
  | app head args head_ih ih =>
    rw [outermost_app_fst, here, Term.rebuilt?_app, Term.outermost?_nil]
    cases applied : find (.app head args) with
    | some result => rfl
    | none =>
      have inHead : (fun path => (Term.app head args).outermost? find (0 :: path)) = head.outermost? find :=
        funext (Term.outermost?_cons rfl applied)
      have inArgs (i : Nat) (t : Term) (found : args[i]? = some t) :
          (fun path => (Term.app head args).outermost? find ((1 + i) :: path)) = t.outermost? find :=
        funext (Term.outermost?_cons (by rw [Nat.add_comm]; exact found) applied)
      simp only [head_ih, outermostArgs_fst ih inArgs, inHead]
  | _ =>
    rw [Term.rebuilt?_of_isAtom _ rfl, Term.outermost?_nil]
    exact here _ j

end Replacer

open Term (touched)

/-- Replacement everywhere with one list of rules, none of which inherits options. Where no part can be
replaced, the term comes back, and is not evaluated. Otherwise all outermost parts that can be replaced
give way to what the first rule that applies makes of them, and the term as a whole is evaluated. An
argument in which that happens, at the root or deeper, stands for its items if it is a sequence then. -/
theorem replaceAll_outermost (ev : Evaluator) {rules : Rules} {list : List Rule}
    (one : rules.list? = some list) (explicit : ∀ r ∈ list, r.lhs.Explicit) (t : Term) (j : Journal) :
    ((∀ path, ¬t.Replaceable (Rule.first? ev list) path) → (replaceAll ev t rules j).1 = .ok t) ∧
    ∀ path, t.Replaceable (Rule.first? ev list) path → (replaceAll ev t rules j).1 =
      .ok (ev.evaluate (t.replaceParts touched (t.outermost? (Rule.first? ev list)))) := by
  have here (t : Term) (j : Journal) :
      (Replacer.applyAt ⟨ev, .replaceAll, list⟩ t j).1 = Rule.first? ev list t :=
    Rule.firstResult_fst explicit .replaceAll j
  rw [replaceAll_of_list ev explicit one t j j, Replacer.outermost_fst here]
  refine ⟨fun nowhere => ?_, fun path found => ?_⟩
  · have untouched : ¬touched (t.outermost? (Rule.first? ev list)) t = true := fun somewhere =>
      (Term.touched_outermost?.mp somewhere).elim nowhere
    rw [Term.rebuilt?, if_neg untouched, Option.elim_none]
  · rw [Term.rebuilt?, if_pos (Term.touched_outermost?.mpr ⟨path, found⟩), Option.elim_some]

def replacingA : Rule := ⟨.literal (.symbol "a"), .symbol "a", .symbol "b", false⟩

/-- Something is replaced in the head and in the first argument, and the last argument is left alone. -/
theorem replaceAll_outermost_symbol :
    let t : Term := .app (.call "a" []) [.call "f" [.symbol "a"], .symbol "c"]
    (Rules.term replacingA.toTerm).list? = some [replacingA] ∧ (∀ r ∈ [replacingA], r.lhs.Explicit) ∧
      (∀ path, ¬(Term.symbol "c").Replaceable (Rule.first? .bare [replacingA]) path) ∧
      (replaceAll .bare (.symbol "c") (.term replacingA.toTerm) {}).1 = .ok (.symbol "c") ∧
      t.Replaceable (Rule.first? .bare [replacingA]) [1, 1] ∧
      (replaceAll .bare t (.term replacingA.toTerm) {}).1 =
        .ok (.app (.call "b" []) [.call "f" [.symbol "b"], .symbol "c"]) := by
  have one : (Rules.term replacingA.toTerm).list? = some [replacingA] := rfl
  have explicit : ∀ r ∈ [replacingA], r.lhs.Explicit := by
    simp only [List.mem_singleton, forall_eq]
    exact .literal _
  have nowhere (path : Path) : ¬(Term.symbol "c").Replaceable (Rule.first? .bare [replacingA]) path := by
    cases path with
    | nil => decide
    | cons n path => simp [Term.Replaceable, Term.part?, Term.child?]
  have found : (Term.app (.call "a" []) [.call "f" [.symbol "a"], .symbol "c"]).Replaceable
      (Rule.first? .bare [replacingA]) [1, 1] := by decide
  refine ⟨one, explicit, nowhere, (replaceAll_outermost .bare one explicit _ {}).1 nowhere, found, ?_⟩
  rw [(replaceAll_outermost .bare one explicit _ {}).2 [1, 1] found]
  rfl

/-- It is not enough that arguments that are themselves replaced stand for their items. -/
theorem replaceAll_splices_around :
    let t : Term := .call "f" [.call "Sequence" [.symbol "a"]]
    let replaced :=
      t.replaceParts (fun new _ => (new []).isSome) (t.outermost? (Rule.first? .bare [replacingA]))
    t.Replaceable (Rule.first? .bare [replacingA]) [1, 1] ∧
      replaced = .call "f" [.call "Sequence" [.symbol "b"]] ∧
      (replaceAll .bare t (.term replacingA.toTerm) {}).1 = .ok (.call "f" [.symbol "b"]) ∧
      (replaceAll .bare t (.term replacingA.toTerm) {}).1 ≠ .ok (Evaluator.bare.evaluate replaced) := by
  have ran : (replaceAll .bare (.call "f" [.call "Sequence" [.symbol "a"]]) (.term replacingA.toTerm) {}).1 =
    .ok (.call "f" [.symbol "b"]) := rfl
  refine ⟨by decide, rfl, ran, fun same => ?_⟩
  have equal : Term.call "f" [.symbol "b"] = .call "f" [.call "Sequence" [.symbol "b"]] :=
    Except.ok.inj (ran.symm.trans same)
  simp [Term.call] at equal

end TermRewriting
