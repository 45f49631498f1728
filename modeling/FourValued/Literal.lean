import FourValued.Letter
import FourValued.TruthValue

/-!
# Literals

A literal is a letter or its negation, and requires of the letter the value that makes it hold.
-/

namespace FourValued

structure Literal where
  letter : Letter
  negated : Bool
  deriving DecidableEq, Repr

namespace Literal

def chars (p : Literal) : List Char := if p.negated then ['~', p.letter.char] else [p.letter.char]

def negate (p : Literal) : Literal := { p with negated := !p.negated }

/-- The value of the letter that makes the literal hold. -/
def required (p : Literal) : TruthValue := .ofBool (!p.negated)

def readLetter : List Char → Option Letter
  | [c] => Letter.ofChar? c
  | _ => none

def read : List Char → Option Literal
  | [] => none
  | c :: cs =>
    if c = '~' then (readLetter cs).map (⟨·, true⟩)
    else (readLetter (c :: cs)).map (⟨·, false⟩)

theorem negate_negate (p : Literal) : p.negate.negate = p := by simp [negate]

theorem readLetter_char (l : Letter) : readLetter [l.char] = some l := l.ofChar?_char

theorem char_ne_tilde : ∀ l : Letter, l.char ≠ '~' := by decide

theorem read_chars (p : Literal) : read p.chars = some p := by
  obtain ⟨l, n⟩ := p
  cases n <;> simp [chars, read, readLetter_char, char_ne_tilde]

end Literal

end FourValued
