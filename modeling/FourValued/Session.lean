import FourValued.Inference
import FourValued.Valuation.Parse

/-!
# Sessions

A session is a formula together with the valuation that has been inferred for its letters.
-/

namespace FourValued

structure Session where
  root : Formula
  valuation : Valuation
  deriving DecidableEq, Repr

namespace Session

def parse (s : String) : Except ExpressionError Session :=
  match Valuation.empty.parse s with
  | (.ok f, v) => .ok ⟨f, v⟩
  | (.error e, _) => .error e

def infer (t : Session) (ss : List String) : Session × Inference :=
  let (v, report) := t.valuation.infer ss
  ({ t with valuation := v }, report)

def start (s : String) (predicates : List String) : Except ExpressionError (Session × Inference) :=
  (parse s).map fun t => t.infer predicates

def value (t : Session) (l : Letter) : TruthValue := t.valuation.get l

def values (t : Session) : List (Letter × TruthValue) :=
  t.valuation.declaredLetters.map fun l => (l, t.value l)

def evaluate (t : Session) : TruthValue := t.root.eval t.value

end Session

end FourValued
