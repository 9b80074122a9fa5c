import TermRewriting.Binary64

/-! Symbolic terms: an atom, or a head applied to arguments. Lists and sequences are ordinary
applications of the symbols `List` and `Sequence`. Equality here tells the truth values apart from
the symbols `True` and `False`. -/

namespace TermRewriting

inductive Term where
  | integer (n : Int)
  | real (x : Binary64)
  | rational (num den : Int)
  | string (text : String)
  | symbol (name : String)
  | boolean (b : Bool)
  | app (head : Term) (args : List Term)
deriving Inhabited

namespace Term

@[elab_as_elim]
theorem induct {P : Term → Prop} (integer : ∀ n, P (.integer n)) (real : ∀ x, P (.real x))
    (rational : ∀ num den, P (.rational num den)) (string : ∀ text, P (.string text))
    (symbol : ∀ name, P (.symbol name)) (boolean : ∀ b, P (.boolean b))
    (app : ∀ head args, P head → (∀ a ∈ args, P a) → P (.app head args)) (t : Term) : P t :=
  @Term.rec P (fun args => ∀ a ∈ args, P a) integer real rational string symbol boolean app
    (by simp)
    (fun _ _ first rest => by simp only [List.mem_cons, forall_eq_or_imp]; exact ⟨first, rest⟩) t

def call (name : String) (args : List Term) : Term := .app (.symbol name) args

def list (items : List Term) : Term := .call "List" items

def sequence (items : List Term) : Term := .call "Sequence" items

def isAtom : Term → Bool
  | .app _ _ => false
  | _ => true

def isNumber : Term → Bool
  | .integer _ | .real _ | .rational _ _ => true
  | _ => false

def symbol? : Term → Option String
  | .symbol name => some name
  | _ => none

def isSymbol (name : String) (t : Term) : Bool := t.symbol? == some name

def int? : Term → Option Int
  | .integer n => some n
  | _ => none

/-- The truth value that an atom stands for, in either of its spellings. -/
def bool? : Term → Option Bool
  | .boolean b => some b
  | .symbol name => if name = "True" then some true else if name = "False" then some false else none
  | _ => none

def isTrue (t : Term) : Bool := t.bool? == some true

/-- The kind of an atom, or the head of an application if that is a symbol. -/
def headName? : Term → Option String
  | .integer _ => some "Integer"
  | .real _ => some "Real"
  | .rational _ _ => some "Rational"
  | .string _ => some "String"
  | .symbol _ | .boolean _ => some "Symbol"
  | .app head _ => head.symbol?

def head : Term → Term
  | .app head _ => head
  | t => .symbol (t.headName?.getD "Symbol")

def args : Term → List Term
  | .app _ args => args
  | _ => []

/-- Whether the term is an application of the symbol; atoms are not, whatever their kind. -/
def isCall (name : String) : Term → Bool
  | .app head _ => head.isSymbol name
  | _ => false

def isCallWith (name : String) (arity : Nat) (t : Term) : Bool :=
  t.isCall name && t.args.length == arity

theorem eq_symbol_of_isSymbol {name : String} {t : Term} (h : t.isSymbol name = true) : t = .symbol name := by
  cases t with
  | symbol x => exact congrArg _ (Option.some.inj (beq_iff_eq.mp h))
  | _ => cases h

theorem eq_call_of_isCall {name : String} {t : Term} (h : t.isCall name = true) : t = .call name t.args := by
  cases t with
  | app head args => exact congrArg (Term.app · args) (eq_symbol_of_isSymbol h)
  | _ => cases h

theorem isCall_eq_false {t : Term} {name other : String} (h : t.isCall name = true)
    (differs : name ≠ other) : t.isCall other = false := by
  cases t with
  | app head args =>
    simp only [isCall, isSymbol, beq_iff_eq] at h ⊢
    simp [h, differs]
  | _ => rfl

def isSequence (t : Term) : Bool := t.isCall "Sequence"

def isEmptySequence (t : Term) : Bool := t.isCallWith "Sequence" 0

/-- The siblings that a term stands for: those in a sequence, or the term alone. -/
def items (t : Term) : List Term := if t.isSequence then t.args else [t]

@[simp] theorem isSequence_sequence (ts : List Term) : (sequence ts).isSequence = true := rfl

@[simp] theorem items_sequence (ts : List Term) : (sequence ts).items = ts := rfl

theorem items_eq_singleton {t : Term} (h : t.isSequence = false) : t.items = [t] := by
  simp [items, h]

mutual

/-- Atoms have depth one, and an application is one deeper than its deepest argument. -/
def depth : Term → Nat
  | .app _ args => 1 + depthAll args
  | _ => 1

def depthAll : List Term → Nat
  | [] => 0
  | t :: ts => max t.depth (depthAll ts)

end

def sign : Term → Option Ordering
  | .integer n => some (compare n 0)
  | .real x => x.sign
  | .rational num den => some (compare (num.sign * den.sign) 0)
  | _ => none

def abortedName : String := "$Aborted"

def isAborted (t : Term) : Bool := t.isSymbol abortedName

mutual

/-- Equality of structure. It fails on a term with a NaN in it, even with itself. -/
protected def beq : Term → Term → Bool
  | .integer m, .integer n => m == n
  | .real x, .real y => x == y
  | .rational m d, .rational n e => m == n && d == e
  | .string s, .string t => s == t
  | .symbol s, .symbol t => s == t
  | .boolean a, .boolean b => a == b
  | .app f xs, .app g ys => Term.beq f g && beqAll xs ys
  | _, _ => false

def beqAll : List Term → List Term → Bool
  | [], [] => true
  | x :: xs, y :: ys => Term.beq x y && beqAll xs ys
  | _, _ => false

end

instance : BEq Term := ⟨Term.beq⟩

/-- Whether the head of `t` equals `h`, where an atom's head is the symbol of its kind. -/
def isHeadedBy (t h : Term) : Bool :=
  match t with
  | .app head _ => head == h
  | t => t.headName?.any h.isSymbol

end Term

end TermRewriting
