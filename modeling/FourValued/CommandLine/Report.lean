import FourValued.CommandLine.Options
import FourValued.Diagram
import FourValued.Dialogue
import FourValued.TruthTable

/-!
# What a command prints

A command reads an expression, infers from its predicates and reports the predicates that were skipped, the
diagram, the values of the letters, the result and, on demand, the truth table. A failure ends the report
where it occurs. Without an expression on the command line, the dialogue supplies it, and the predicates
entered there come first.
-/

namespace FourValued.CommandLine

inductive Failure
  | usage
  | noExpression
  | garbledInput
  | expression (e : ExpressionError)
  | tooManyVariables (e : TooManyVariables)
  deriving DecidableEq, Repr

namespace Failure

def exitCode : Failure → Nat
  | usage => 2
  | _ => 1

def message : Failure → Option String
  | usage => none
  | noExpression => some "No expression given"
  | garbledInput => some "stream did not contain valid UTF-8"
  | expression e => some e.message
  | tooManyVariables e => some e.message

end Failure

structure Report where
  output : String
  failure : Option Failure
  deriving DecidableEq, Repr

namespace Report

def exitCode (r : Report) : Nat :=
  match r.failure with
  | none => 0
  | some f => f.exitCode

def message (r : Report) : Option String := r.failure.bind Failure.message

def after (r : Report) (text : String) : Report := { r with output := text ++ r.output }

end Report

def summary (diagram : Bool) (t : Session) (i : Inference) : String :=
  String.join (i.warnings.map fun m => "Skipped: " ++ m.message ++ "\n") ++
    (if diagram then Diagram.text t.root t.value ++ "\n" else "") ++
    String.join (t.values.map fun (l, v) => l.text ++ ": " ++ v.word ++ "\n") ++
    "Result: " ++ t.evaluate.word ++ "\n"

def report (o : Options) (expression : String) (predicates : List String) : Report :=
  match Session.start expression predicates with
  | .error e => ⟨"", some (.expression e)⟩
  | .ok (t, i) =>
    let text := summary o.diagram t i
    if o.table then
      match TruthTable.ofSession t with
      | .error e => ⟨text, some (.tooManyVariables e)⟩
      | .ok table => ⟨text ++ "\n" ++ table.text, none⟩
    else ⟨text, none⟩

def reportOutcome (o : Options) : Dialogue.Outcome → Report
  | .abandoned => ⟨"", some .noExpression⟩
  | .garbled => ⟨"", some .garbledInput⟩
  | .entered e ps => report o e (ps ++ o.predicates)

def reportWith (o : Options) (input : List UInt8) : Report :=
  match o.expression with
  | some e => report o e o.predicates
  | none =>
    let (outcome, text) := Dialogue.hold input
    (reportOutcome o outcome).after text

def run (args : List String) (input : List UInt8) : Report :=
  match readOptions args with
  | none => ⟨"", some .usage⟩
  | some o => reportWith o input

end FourValued.CommandLine
