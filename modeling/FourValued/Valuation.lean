import FourValued.LetterMap
import FourValued.TruthValue

/-!
# Valuations

A valuation says which letters are declared and gives each letter a value. Letters can be linked into
classes that share one value: every letter has a parent, the letters that are their own parents represent
their classes, and a class keeps its value in the cell of its representative. The cells of other letters
are never read.
-/

namespace FourValued

structure Valuation where
  declared : LetterMap Bool
  parent : LetterMap Letter
  cells : LetterMap TruthValue
  deriving DecidableEq, Repr

namespace Valuation

def empty : Valuation := ⟨.const false, .ofFn id, .const .unknown⟩

instance : Inhabited Valuation := ⟨empty⟩

def climb (v : Valuation) : Nat → Letter → Letter
  | 0, l => l
  | n + 1, l => if v.parent.get l = l then l else v.climb n (v.parent.get l)

/-- The letter that represents the class of a letter. No chain of parents is longer than the alphabet. -/
def representative (v : Valuation) (l : Letter) : Letter := v.climb Letter.count l

def linked (v : Valuation) (a b : Letter) : Bool := v.representative a = v.representative b

def get (v : Valuation) (l : Letter) : TruthValue := v.cells.get (v.representative l)

def snapshot (v : Valuation) : LetterMap TruthValue := .ofFn v.get

def isDeclared (v : Valuation) (l : Letter) : Bool := v.declared.get l

def declaredLetters (v : Valuation) : List Letter := Letter.all.filter v.isDeclared

def declare (v : Valuation) (l : Letter) : Valuation := { v with declared := v.declared.set l true }

def declareAll (v : Valuation) (ls : List Letter) : Valuation := ls.foldl declare v

def put (v : Valuation) (l : Letter) (x : TruthValue) : Valuation :=
  { v.declare l with cells := v.cells.set (v.representative l) x }

/-- Declares a letter and revises the value of its class by the evidence `x`; answers with the new value. -/
def assertThenGet (v : Valuation) (l : Letter) (x : TruthValue) : TruthValue × Valuation :=
  let new := (v.get l).revise x
  (new, v.put l new)

def assertValue (v : Valuation) (l : Letter) (x : TruthValue) : Valuation := (v.assertThenGet l x).2

def poison (v : Valuation) (l : Letter) : Valuation := v.put l .invalid

def assign (v : Valuation) (l : Letter) (b : Bool) : Valuation := v.put l (.ofBool b)

/-- The representative that stays and the one that joins it when two letters are linked: an unknown class
joins a known one, and otherwise the second joins the first. -/
def orient (v : Valuation) (a b : Letter) : Letter × Letter :=
  if (v.get a).isKnown = false ∧ (v.get b).isKnown = true then (v.representative b, v.representative a)
  else (v.representative a, v.representative b)

/-- Declares two letters and merges their classes; the common value, with which it answers, is the join of the two. -/
def linkThenGet (v : Valuation) (a b : Letter) : TruthValue × Valuation :=
  let merged := (v.get a).join (v.get b)
  let (root, child) := v.orient a b
  (merged,
    { declared := (v.declared.set a true).set b true
      parent := v.parent.set child root
      cells := v.cells.set root merged })

def link (v : Valuation) (a b : Letter) : Valuation := (v.linkThenGet a b).2

def text (v : Valuation) : String :=
  "\x7b" ++ ", ".intercalate (v.declaredLetters.map fun l => l.text ++ ": " ++ (v.get l).word) ++ "\x7d"

theorem assertValue_eq (v : Valuation) (l : Letter) (x : TruthValue) :
    v.assertValue l x = v.put l ((v.get l).revise x) := rfl

theorem mem_declaredLetters {v : Valuation} {l : Letter} :
    l ∈ v.declaredLetters ↔ v.isDeclared l = true := by
  simp [declaredLetters, Letter.mem_all]

@[simp] theorem isDeclared_declare (v : Valuation) (l k : Letter) :
    (v.declare l).isDeclared k = (k = l || v.isDeclared k) := by
  simp only [isDeclared, declare, LetterMap.get_set]
  split <;> simp_all

theorem climb_congr {v w : Valuation} (h : v.parent = w.parent) (n : Nat) (l : Letter) :
    v.climb n l = w.climb n l := by
  induction n generalizing l with
  | zero => rfl
  | succ n ih => simp [climb, h, ih]

theorem representative_congr {v w : Valuation} (h : v.parent = w.parent) (l : Letter) :
    v.representative l = w.representative l := climb_congr h _ l

@[simp] theorem representative_declare (v : Valuation) (l k : Letter) :
    (v.declare l).representative k = v.representative k := representative_congr rfl k

@[simp] theorem representative_put (v : Valuation) (l k : Letter) (x : TruthValue) :
    (v.put l x).representative k = v.representative k := representative_congr rfl k

@[simp] theorem get_declare (v : Valuation) (l k : Letter) : (v.declare l).get k = v.get k := by
  simp only [get, representative_declare]
  rfl

theorem get_put (v : Valuation) (l k : Letter) (x : TruthValue) :
    (v.put l x).get k = if v.representative k = v.representative l then x else v.get k := by
  simp only [get, representative_put]
  exact LetterMap.get_set _ _ _ _

@[simp] theorem isDeclared_put (v : Valuation) (l k : Letter) (x : TruthValue) :
    (v.put l x).isDeclared k = (k = l || v.isDeclared k) := isDeclared_declare v l k

end Valuation

end FourValued
