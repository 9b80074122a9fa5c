import TermRewriting.Term.Basic

/-! Sameness of terms: equality that does not tell the two spellings of a truth value apart.
Patterns compare literals and repeated variables with it. -/

namespace TermRewriting.Term

mutual

def same : Term → Term → Bool
  | .app f xs, .app g ys => same f g && sameAll xs ys
  | .boolean a, t => t.bool? == some a
  | t, .boolean b => t.bool? == some b
  | t, u => t == u

def sameAll : List Term → List Term → Bool
  | [], [] => true
  | x :: xs, y :: ys => same x y && sameAll xs ys
  | _, _ => false

end

end TermRewriting.Term
