import FourValued.Connective
import FourValued.Letter

/-!
# Formulas

Formulas are built from letters by negation and the two connectives. They are written bracketed, as in
`(P & ~Q)`, or functionally, as in `And(Var(P), Not(Var(Q)))`.
-/

namespace FourValued

inductive Formula
  | var (l : Letter)
  | neg (f : Formula)
  | binary (c : Connective) (l r : Formula)
  deriving DecidableEq, Repr

namespace Formula

def children : Formula → List Formula
  | var _ => []
  | neg f => [f]
  | binary _ l r => [l, r]

def size : Formula → Nat
  | var _ => 1
  | neg f => f.size + 1
  | binary _ l r => l.size + r.size + 1

def letters : Formula → List Letter
  | var l => [l]
  | neg f => f.letters
  | binary _ l r => l.letters ++ r.letters

def functionName : Connective → String
  | .and => "And"
  | .or => "Or"

def bracketed : Formula → String
  | var l => l.text
  | neg f => "~" ++ f.bracketed
  | binary c l r => "(" ++ l.bracketed ++ " " ++ c.text ++ " " ++ r.bracketed ++ ")"

def functional : Formula → String
  | var l => "Var(" ++ l.text ++ ")"
  | neg f => "Not(" ++ f.functional ++ ")"
  | binary c l r => functionName c ++ "(" ++ l.functional ++ ", " ++ r.functional ++ ")"

def eval (value : Letter → TruthValue) : Formula → TruthValue
  | var l => value l
  | neg f => (f.eval value).negate
  | binary c l r => c.apply (l.eval value) (r.eval value)

theorem eval_congr {v w : Letter → TruthValue} (f : Formula) (h : ∀ l ∈ f.letters, v l = w l) :
    f.eval v = f.eval w := by
  induction f with
  | var l => exact h l (by simp [letters])
  | neg f ih => simp [eval, ih h]
  | binary c l r ihl ihr =>
    rw [eval, eval, ihl fun x hx => h x (by simp [letters, hx]),
      ihr fun x hx => h x (by simp [letters, hx])]

end Formula

end FourValued
