import FourValued.TruthValue

/-!
# Binary connectives

Conjunction is written `&` and disjunction `?`. Each is the dual of the other.
-/

namespace FourValued

inductive Connective
  | and
  | or
  deriving DecidableEq, Repr

namespace Connective

def char : Connective → Char
  | and => '&'
  | or => '?'

def text (c : Connective) : String := c.char.toString

def ofChar? (c : Char) : Option Connective :=
  if c = '&' then some and else if c = '?' then some or else none

def dual : Connective → Connective
  | and => or
  | or => and

def apply : Connective → TruthValue → TruthValue → TruthValue
  | and => TruthValue.and
  | or => TruthValue.or

theorem ofChar?_eq_some_iff {x : Char} {c : Connective} : ofChar? x = some c ↔ x = c.char := by
  cases c <;> simp only [ofChar?, char] <;> split <;> simp_all

theorem dual_dual (c : Connective) : c.dual.dual = c := by cases c <;> rfl

end Connective

end FourValued
