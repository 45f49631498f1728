import FourValued.Polish

/-!
# Why an expression cannot be read

An expression is refused because it is empty, because it ends too early, or because a piece of it is
malformed. The last kind of error quotes the piece and names its fault. All wording is here.
-/

namespace FourValued

inductive Fault
  | foreignCharacter (c : Char)
  | unmatchedClose
  | unmatchedOpen
  | nestedConditional
  | conditionalShape
  | missingOperand
  | missingSide (c : Connective)
  | notAVariable
  | notAToken (c : Char)
  | trailing (rest : Polish)
  deriving DecidableEq, Repr

namespace Fault

def reason : Fault → String
  | foreignCharacter c => "unexpected character '" ++ c.toString ++ "'"
  | unmatchedClose => "unmatched ')'"
  | unmatchedOpen => "unmatched '('"
  | nestedConditional => "a conditional must not be nested inside parentheses"
  | conditionalShape => "a conditional needs exactly one antecedent and one consequent"
  | missingOperand => "missing operand"
  | missingSide c => "operator '" ++ c.text ++ "' needs two operands"
  | notAVariable => "expected a single variable"
  | notAToken c => "'" ++ c.toString ++ "' is not a preorder token"
  | trailing rest => "trailing tokens `" ++ rest.text ++ "` after a complete expression"

end Fault

inductive ExpressionError
  | empty
  | truncated
  | malformed (input : String) (fault : Fault)
  deriving DecidableEq, Repr

namespace ExpressionError

def message : ExpressionError → String
  | empty => "Expression is empty"
  | truncated => "Expression ended before every operator received its operands"
  | malformed input fault => "Malformed expression `" ++ input ++ "`: " ++ fault.reason

end ExpressionError

end FourValued
