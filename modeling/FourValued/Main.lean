import FourValued.CommandLine.Report

/-!
# The command

Reads standard input line by line while the dialogue is held, and prints the report.
-/

namespace FourValued.CommandLine

/-- The bytes up to the next line feed, which is kept; `line` holds those already read, last byte first. -/
partial def readLine (input : IO.FS.Stream) (line : List UInt8) : IO (List UInt8) := do
  match (← input.read 1).toList with
  | [] => return line.reverse
  | b :: _ => if b = Text.lineFeed then return (b :: line).reverse else readLine input (b :: line)

partial def holdDialogue (input output : IO.FS.Stream) (d : Dialogue) : IO Dialogue.Outcome := do
  match d with
  | .closed outcome => return outcome
  | _ =>
    match Text.lines (← readLine input []) with
    | line :: _ =>
      let (d, answer) := d.hear (Text.decodeUtf8 line)
      output.putStr answer
      output.flush
      holdDialogue input output d
    | [] =>
      let (outcome, answer) := d.conclude
      output.putStr answer
      return outcome

def usage : String :=
  "usage: four-valued [-t] [--no-tree] [--log-level LEVEL] [-p PREDICATE]... [EXPRESSION]"

def interact (args : List String) (input output : IO.FS.Stream) : IO Report := do
  match readOptions args with
  | none => return ⟨"", some .usage⟩
  | some o =>
    match o.expression with
    | some e => return report o e o.predicates
    | none =>
      output.putStr Dialogue.opening
      output.flush
      return reportOutcome o (← holdDialogue input output .expression)

end FourValued.CommandLine

open FourValued.CommandLine in
def main (args : List String) : IO UInt32 := do
  let output ← IO.getStdout
  let report ← interact args (← IO.getStdin) output
  output.putStr report.output
  output.flush
  if report.failure.isSome then
    IO.eprintln (report.message.getD usage)
  return report.exitCode.toUInt32
