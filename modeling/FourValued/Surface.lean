import FourValued.Formula

/-!
# The surface grammar

An expression is an operand, or an operand, a connective and an expression; an operand is a letter, a
negated operand or a bracketed expression. A sentence is an expression, or a conditional between two
expressions. The types here are the derivation trees of this grammar, and `text` is the text that a
derivation derives.
-/

namespace FourValued

inductive Level
  | operand
  | expression
  deriving DecidableEq, Repr

def Level.rank : Level → Nat
  | .operand => 0
  | .expression => 1

inductive Surface : Level → Type
  | letter (l : Letter) : Surface .operand
  | neg (u : Surface .operand) : Surface .operand
  | group (e : Surface .expression) : Surface .operand
  | single (u : Surface .operand) : Surface .expression
  | binary (c : Connective) (u : Surface .operand) (e : Surface .expression) : Surface .expression
  deriving DecidableEq, Repr

inductive Sentence
  | plain (e : Surface .expression)
  | conditional (antecedent consequent : Surface .expression)
  deriving DecidableEq, Repr

namespace Surface

def text {k : Level} : Surface k → List Char
  | letter l => [l.char]
  | neg u => '~' :: u.text
  | group e => '(' :: (e.text ++ [')'])
  | single u => u.text
  | binary c u e => u.text ++ c.char :: e.text

def eval {k : Level} (value : Letter → TruthValue) : Surface k → TruthValue
  | letter l => value l
  | neg u => (u.eval value).negate
  | group e => e.eval value
  | single u => u.eval value
  | binary c u e => c.apply (u.eval value) (e.eval value)

/-- The formula of an expression, or of its negation when `negated` holds. A negated bracketed connective
becomes the dual connective of the negated sides; every other negation stays where it is written. -/
def formula {k : Level} (negated : Bool) : Surface k → Formula
  | letter l => if negated then .neg (.var l) else .var l
  | neg u => if negated then .neg (u.formula true) else u.formula true
  | group (single u) => if negated then .neg (u.formula false) else u.formula false
  | group (binary c u e) =>
    .binary (if negated then c.dual else c) (u.formula negated) (e.formula negated)
  | single u => u.formula negated
  | binary c u e => .binary (if negated then c.dual else c) (u.formula negated) (e.formula negated)

end Surface

namespace Sentence

def text : Sentence → List Char
  | plain e => e.text
  | conditional a c => a.text ++ '>' :: c.text

def eval (value : Letter → TruthValue) : Sentence → TruthValue
  | plain e => e.eval value
  | conditional a c => (a.eval value).negate.or (c.eval value)

def formula : Sentence → Formula
  | plain e => e.formula false
  | conditional a c => .binary .or (a.formula true) (c.formula false)

end Sentence

end FourValued
