import FourValued.Session

/-!
# Truth tables

The truth table of a session has a column for each declared letter and a row for each way to decide its
unknown classes. The free letters represent these classes, ordered by the first declared letter of each. Row
`i` gives them the binary digits of `i`, the first free letter the most significant one. Tables of more than
sixteen free letters are refused.
-/

namespace FourValued

def maxFree : Nat := 16

structure TooManyVariables where
  count : Nat
  max : Nat
  deriving DecidableEq, Repr

def TooManyVariables.message (e : TooManyVariables) : String :=
  "Too many free variables for a truth table: " ++ toString e.count ++ " (at most " ++ toString e.max ++ ")"

structure TruthTable where
  session : Session
  columns : List Letter
  free : List Letter
  deriving DecidableEq, Repr

structure TruthTable.Row where
  values : List TruthValue
  result : TruthValue
  deriving DecidableEq, Repr

/-- The representatives of the classes of declared letters whose value is unknown. -/
def Valuation.freeLetters (v : Valuation) : List Letter :=
  ((v.declaredLetters.filter fun l => v.get l = .unknown).map v.representative).eraseDups

namespace TruthTable

def ofSession (t : Session) : Except TooManyVariables TruthTable :=
  let free := t.valuation.freeLetters
  if free.length ≤ maxFree then .ok ⟨t, t.valuation.declaredLetters, free⟩ else .error ⟨free.length, maxFree⟩

def numRows (t : TruthTable) : Nat := 1 <<< t.free.length

/-- The valuation in which the free letters have the digits of `i`. -/
def assignment (t : TruthTable) (i : Nat) : Valuation :=
  t.free.zipIdx.foldl (fun v (l, j) => v.assign l (i.testBit (t.free.length - 1 - j))) t.session.valuation

def row (t : TruthTable) (i : Nat) : Row :=
  let v := t.assignment i
  ⟨t.columns.map v.get, t.session.root.eval v.get⟩

def rows (t : TruthTable) : List Row := (List.range t.numRows).map t.row

structure Cursor where
  table : TruthTable
  passed : Nat
  deriving DecidableEq, Repr

def cursor (t : TruthTable) : Cursor := ⟨t, 0⟩

namespace Cursor

def next? (c : Cursor) : Option (Row × Cursor) :=
  if c.passed < c.table.numRows then some (c.table.row c.passed, { c with passed := c.passed + 1 })
  else none

def remaining (c : Cursor) : Nat := c.table.numRows - c.passed

def skip (c : Cursor) : Nat → Cursor
  | 0 => c
  | n + 1 =>
    match c.next? with
    | none => c
    | some (_, rest) => rest.skip n

def take (c : Cursor) : Nat → List Row
  | 0 => []
  | n + 1 =>
    match c.next? with
    | none => []
    | some (r, rest) => r :: rest.take n

end Cursor

def Row.text (r : Row) : String :=
  "\t".intercalate (r.values.map TruthValue.mark) ++ "\t| " ++ r.result.word ++ "\n"

def header (t : TruthTable) : String := "\t".intercalate (t.columns.map Letter.text) ++ "\t| Result\n"

def text (t : TruthTable) : String := String.join (t.header :: t.rows.map Row.text)

end TruthTable

end FourValued
