import FourValued.Text.Canonical
import FourValued.Text.Lines

/-!
# The dialogue

The dialogue asks for an expression and then for predicates, one line each, until a line says that this is
all or the input ends. It is a state that hears one line at a time and answers with the text to print. A
line that is not UTF-8 breaks it off.
-/

namespace FourValued

open Text

inductive Dialogue.Outcome
  | abandoned
  | garbled
  | entered (expression : String) (predicates : List String)
  deriving DecidableEq, Repr

inductive Dialogue
  | expression
  | predicates (expression : String) (entered : List String)
  | closed (outcome : Dialogue.Outcome)
  deriving DecidableEq, Repr

namespace Dialogue

def banner : List String :=
  ["Write your logical expression, followed by its predicates.", "", "\tFormatting examples:",
    "Expression:\tP & ~(S ? Q)", "Predicates:\tP", "\t\tQ > ~P", "",
    "And: &\t Or: ?\t Not: ~\t Iff: =\t If-Then: >", ""]

def opening : String := String.join (banner.map (· ++ "\n")) ++ "Expression:\t"

def instruction : String := "Enter predicates (type 'done' to finish):\n"

def request (n : Nat) : String := "P" ++ toString n ++ ": "

def closing : String := "\n"

def isDone (line : String) : Bool := (trim line).toList.map Char.toLower = "done".toList

/-- Hears one line, which is none where its bytes are not UTF-8, and answers with the text to print. -/
def hear : Dialogue → Option String → Dialogue × String
  | closed o, _ => (closed o, "")
  | _, none => (closed .garbled, "")
  | expression, some e => (predicates e [], instruction ++ request 1)
  | predicates e ps, some p =>
    if isDone p then (closed (.entered e ps), closing)
    else (predicates e (ps ++ [p]), request (ps.length + 2))

def conclude : Dialogue → Outcome × String
  | expression => (.abandoned, "")
  | predicates e ps => (.entered e ps, closing)
  | closed o => (o, "")

def converse (d : Dialogue) : List (Option String) → Outcome × String
  | [] => d.conclude
  | line :: rest =>
    let (d, answer) := d.hear line
    let (o, text) := d.converse rest
    (o, answer ++ text)

def hold (input : List UInt8) : Outcome × String :=
  let (o, text) := expression.converse ((lines input).map decodeUtf8)
  (o, opening ++ text)

theorem converse_closed (o : Outcome) (ls : List (Option String)) : (closed o).converse ls = (o, "") := by
  induction ls with
  | nil => rfl
  | cons l ls ih => simp [converse, hear, ih]

end Dialogue

end FourValued
