import FourValued.Formula.Polish
import FourValued.Surface.Reader
import FourValued.Text.Cut

/-!
# Expressions as text

A sentence is read from its canonical text after three checks of the whole text: that it holds no foreign
character, that its brackets match, and that no conditional stands inside brackets. `normalize` reads a
sentence and writes its formula in Polish notation.
-/

namespace FourValued

open Text

def isSurfaceChar (c : Char) : Bool :=
  c.isUpper || c == '~' || c == '&' || c == '?' || c == '>' || c == '(' || c == ')'

section Counting

variable {D : Type} [OfNat D 0] [OfNat D 1] [Neg D] [Add D] [LT D] [DecidableEq D] [DecidableLT D]

/-- The first fault of the brackets of a text that begins with `d` brackets open. -/
def bracketFault? (d : D) : List Char → Option Fault
  | [] => if d = 0 then none else some .unmatchedOpen
  | c :: cs =>
    if d + depthOf c < 0 then some .unmatchedClose
    else bracketFault? (d + depthOf c) cs

def nestsConditional (d : D) : List Char → Bool
  | [] => false
  | c :: cs =>
    (c == '>' && d != 0) || nestsConditional (d + depthOf c) cs

def wholeFault? (d : D) (cs : List Char) : Option Fault :=
  match cs.find? fun c => !isSurfaceChar c with
  | some c => some (.foreignCharacter c)
  | none =>
    match bracketFault? d cs with
    | some fault => some fault
    | none => if nestsConditional d cs then some .nestedConditional else none

end Counting

def Sentence.readSound (cs : List Char) : Except ExpressionError Sentence :=
  if '>' ∈ cs then
    match cutOnce '>' cs with
    | none => .error (.at cs .conditionalShape)
    | some (before, after) =>
      if before = [] ∨ after = [] then .error (.at cs .conditionalShape)
      else do
        let a ← Surface.read .expression before
        let c ← Surface.read .expression after
        return .conditional a c
  else (Surface.read .expression cs).map .plain

def Sentence.read (cs : List Char) : Except ExpressionError Sentence :=
  if cs = [] then .error .empty
  else
    match wholeFault? (0 : Int) cs with
    | some fault => .error (.at cs fault)
    | none => readSound cs

def normalize (s : String) : Except ExpressionError Polish :=
  (Sentence.read (canonical s)).map fun t => t.formula.encode

end FourValued
