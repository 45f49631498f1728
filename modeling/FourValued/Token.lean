import FourValued.Connective
import FourValued.Letter

/-!
# Tokens of Polish notation

A token is a negation sign, a connective or a letter, and is written as one character. Reading a character
inverts writing a token (`ofChar?_char`).
-/

namespace FourValued

inductive Token
  | neg
  | binary (c : Connective)
  | var (l : Letter)
  deriving DecidableEq, Repr

namespace Token

def char : Token → Char
  | neg => '~'
  | binary c => c.char
  | var l => l.char

def text (t : Token) : String := t.char.toString

def ofChar? (c : Char) : Option Token :=
  if c = '~' then some neg
  else match Connective.ofChar? c with
    | some k => some (binary k)
    | none => (Letter.ofChar? c).map var

def isBinary : Token → Bool
  | binary _ => true
  | _ => false

def dual : Token → Token
  | binary c => binary c.dual
  | t => t

def letter? : Token → Option Letter
  | var l => some l
  | _ => none

theorem ofChar?_char (t : Token) : ofChar? t.char = some t := by
  cases t with
  | neg => decide
  | binary c => cases c <;> decide
  | var l => revert l; decide

theorem dual_dual (t : Token) : t.dual.dual = t := by
  cases t <;> simp [dual, Connective.dual_dual]

end Token

end FourValued
