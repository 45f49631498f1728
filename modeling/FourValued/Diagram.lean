import FourValued.Formula

/-!
# Tree diagrams

A diagram draws a formula sideways, one line for each of its nodes: above a connective stands its right
operand, below it its left operand, and below a negation its operand. Each line shows the node's name and
value after a connector that turns down or up to the node's parent. The margin of a line has four columns
for each ancestor, with a bar where a connection passes by. The root is drawn as if its parent stood above.
-/

namespace FourValued

namespace Diagram

inductive Side
  | above
  | below
  deriving DecidableEq, Repr

structure Line where
  /-- Whether a bar passes, for each ancestor from the root down. -/
  margin : List Bool
  side : Side
  label : String
  value : TruthValue
  deriving DecidableEq, Repr

def connectiveName : Connective → String
  | .and => "AND"
  | .or => "OR"

def label : Formula → String
  | .var l => l.text
  | .neg _ => "NOT"
  | .binary c _ _ => connectiveName c

/-- The lines of a node that stands on `side` of its parent. What is drawn between the node and its parent
crosses the connection of the two, and the rest does not. -/
def lines (value : Letter → TruthValue) (margin : List Bool) (side : Side) : Formula → List Line
  | .var l => [⟨margin, side, label (.var l), value l⟩]
  | .neg f =>
    ⟨margin, side, label (.neg f), (Formula.neg f).eval value⟩ ::
      lines value (margin ++ [decide (side = .above)]) .below f
  | .binary c l r =>
    lines value (margin ++ [decide (side = .below)]) .above r ++
      ⟨margin, side, label (.binary c l r), (Formula.binary c l r).eval value⟩ ::
        lines value (margin ++ [decide (side = .above)]) .below l

def Side.connector : Side → String
  | above => "┌── "
  | below => "└── "

def marginText (bar : Bool) : String := if bar then "│   " else "    "

def Line.text (l : Line) : String :=
  String.join (l.margin.map marginText) ++ l.side.connector ++ l.label ++ ": " ++ l.value.word ++ "\n"

def text (f : Formula) (value : Letter → TruthValue) : String :=
  String.join ((lines value [] .below f).map Line.text)

theorem length_lines (value : Letter → TruthValue) (margin : List Bool) (side : Side) (f : Formula) :
    (lines value margin side f).length = f.size := by
  induction f generalizing margin side with
  | var l => rfl
  | neg f ih => simp [lines, Formula.size, ih]
  | binary c l r ihl ihr => simp [lines, Formula.size, ihl, ihr]; omega

end Diagram

end FourValued
