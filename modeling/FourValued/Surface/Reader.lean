import FourValued.ExpressionError
import FourValued.Surface
import FourValued.Text.Brackets
import FourValued.Text.Canonical

/-!
# Reading the surface grammar

An expression is cut at its main connective, and an operand is told by its first character. The reader
reports the first piece that cannot be read, from left to right, with its fault.
-/

namespace FourValued

open Text

def ExpressionError.at (piece : List Char) (fault : Fault) : ExpressionError :=
  .malformed (String.ofList piece) fault

namespace Surface

def read : (k : Level) → List Char → Except ExpressionError (Surface k)
  | .expression, cs =>
    match _h : splitMain cs with
    | none => (read .operand cs).map single
    | some (l, c, r) =>
      if l = [] ∨ r = [] then .error (.at cs (.missingSide c))
      else do
        let u ← read .operand l
        let e ← read .expression r
        return .binary c u e
  | .operand, [] => .error (.at [] .missingOperand)
  | .operand, c :: cs =>
    if c = '~' then (read .operand cs).map neg
    else
      match _h : enclosed (c :: cs) with
      | some inner => (read .expression inner).map group
      | none =>
        match Letter.ofChar? c, cs with
        | some l, [] => .ok (.letter l)
        | _, _ => .error (.at (c :: cs) .notAVariable)
termination_by k cs => 2 * cs.length + k.rank
decreasing_by
  · simp [Level.rank]
  · have := congrArg List.length (eq_of_splitMain _h)
    simp [Level.rank] at this ⊢; omega
  · have := congrArg List.length (eq_of_splitMain _h)
    simp [Level.rank] at this ⊢; omega
  · simp [Level.rank]
  · have := congrArg List.length (eq_of_enclosed _h)
    simp [Level.rank] at this ⊢; omega

end Surface

end FourValued
