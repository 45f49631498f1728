import FourValued.Predicate
import FourValued.Text.Canonical
import FourValued.Text.Cut

/-!
# Reading predicates

A predicate is read from its canonical text; a blank text holds none. The conditional sign decides over the
biconditional sign, and a text with neither must be a literal. A text that cannot be read is reported with
its outer blanks removed.
-/

namespace FourValued

open Text

inductive PredicateFault
  | biconditionalShape
  | biconditionalSide
  | conditionalShape
  | conditionalSide
  | assignmentShape
  deriving DecidableEq, Repr

def PredicateFault.reason : PredicateFault → String
  | biconditionalShape => "a biconditional needs exactly two sides"
  | biconditionalSide => "each side of a biconditional must be a single variable"
  | conditionalShape => "a conditional needs exactly one antecedent and one consequent"
  | conditionalSide => "each side of a conditional must be a variable or its negation"
  | assignmentShape => "an assignment must be a variable or its negation"

structure MalformedPredicate where
  predicate : String
  fault : PredicateFault
  deriving DecidableEq, Repr

def MalformedPredicate.message (m : MalformedPredicate) : String :=
  "Malformed predicate `" ++ m.predicate ++ "`: " ++ m.fault.reason

namespace Predicate

def readBiconditional (cs : List Char) : Except PredicateFault Predicate :=
  match cutOnce '=' cs with
  | none => .error .biconditionalShape
  | some (l, r) =>
    match Literal.readLetter l, Literal.readLetter r with
    | some l, some r => .ok (.biconditional l r)
    | _, _ => .error .biconditionalSide

def readConditional (cs : List Char) : Except PredicateFault Predicate :=
  match cutOnce '>' cs with
  | none => .error .conditionalShape
  | some (a, c) =>
    match Literal.read a, Literal.read c with
    | some a, some c => .ok (.conditional a c)
    | _, _ => .error .conditionalSide

def readAssignment (cs : List Char) : Except PredicateFault Predicate :=
  match Literal.read cs with
  | some p => .ok (.assignment p)
  | none => .error .assignmentShape

def readChars (cs : List Char) : Except PredicateFault Predicate :=
  if '>' ∈ cs then readConditional cs
  else if '=' ∈ cs then readBiconditional cs
  else readAssignment cs

/-- Reads a predicate; a blank text holds none. -/
def read (s : String) : Except MalformedPredicate (Option Predicate) :=
  let cs := canonical s
  if cs = [] then .ok none
  else
    match readChars cs with
    | .ok p => .ok (some p)
    | .error fault => .error ⟨trim s, fault⟩

theorem letter_char_ne : ∀ l : Letter, l.char ≠ '>' ∧ l.char ≠ '=' := by decide

theorem not_mem_literal (p : Literal) : '>' ∉ p.chars ∧ '=' ∉ p.chars := by
  obtain ⟨l, n⟩ := p
  have := letter_char_ne l
  cases n <;> simp [Literal.chars, this.1.symm, this.2.symm]

theorem readChars_chars (p : Predicate) : readChars p.chars = .ok p := by
  cases p with
  | assignment p =>
    simp [readChars, chars, not_mem_literal p, readAssignment, Literal.read_chars]
  | biconditional l r =>
    have hl := letter_char_ne l
    have hr := letter_char_ne r
    have cut : cutOnce '=' [l.char, '=', r.char] = some ([l.char], [r.char]) :=
      cutOnce_eq_some_iff.2 ⟨rfl, by simp [hl.2.symm], by simp [hr.2.symm]⟩
    simp [readChars, chars, hl.1.symm, hr.1.symm, readBiconditional, cut, Literal.readLetter_char]
  | conditional a c =>
    have cut : cutOnce '>' (a.chars ++ '>' :: c.chars) = some (a.chars, c.chars) :=
      cutOnce_eq_some_iff.2 ⟨rfl, (not_mem_literal a).1, (not_mem_literal c).1⟩
    simp [readChars, chars, readConditional, cut, Literal.read_chars]

end Predicate

end FourValued
