import FourValued.Literal

/-!
# Predicates

A predicate asserts a literal, makes two letters equivalent, or states a conditional between two literals.
Its text has one to five characters.
-/

namespace FourValued

inductive Predicate
  | assignment (p : Literal)
  | biconditional (l r : Letter)
  | conditional (antecedent consequent : Literal)
  deriving DecidableEq, Repr

namespace Predicate

def chars : Predicate → List Char
  | assignment p => p.chars
  | biconditional l r => [l.char, '=', r.char]
  | conditional a c => a.chars ++ '>' :: c.chars

def text (p : Predicate) : String := String.ofList p.chars

def letters : Predicate → List Letter
  | assignment p => [p.letter]
  | biconditional l r => [l, r]
  | conditional a c => [a.letter, c.letter]

def length (p : Predicate) : Nat := p.chars.length

def maxLength : Nat := 5

theorem length_le (p : Predicate) : p.length ≤ maxLength := by
  rcases p with ⟨l, n⟩ | _ | ⟨⟨l, n⟩, ⟨m, k⟩⟩
  · cases n <;> simp [length, chars, Literal.chars, maxLength]
  · simp [length, chars, maxLength]
  · cases n <;> cases k <;> simp [length, chars, Literal.chars, maxLength]

end Predicate

end FourValued
