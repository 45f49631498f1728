/-!
# The four truth values

A truth value is true, false, unknown or invalid, where invalid stands for a contradiction. Conjunction and
disjunction take the dominant operand in the orders false, invalid, unknown, true and true, unknown, invalid,
false; on unknown and invalid together they are not De Morgan duals. Values are ordered by information:
unknown lies below true and false, and these below invalid. `join` is the least upper bound of that order
(`le_join_left`, `le_join_right`, `join_le`), and `revise` takes in new evidence, where only evidence that
the value already holds leaves it alone.
-/

namespace FourValued

inductive TruthValue
  | tt
  | ff
  | unknown
  | invalid
  deriving DecidableEq, Repr

namespace TruthValue

instance : Inhabited TruthValue := ⟨unknown⟩

def all : List TruthValue := [tt, ff, unknown, invalid]

def ofBool : Bool → TruthValue
  | true => tt
  | false => ff

def isKnown : TruthValue → Bool
  | unknown => false
  | _ => true

def isConcrete : TruthValue → Bool
  | tt | ff => true
  | _ => false

def negate : TruthValue → TruthValue
  | tt => ff
  | ff => tt
  | v => v

def and : TruthValue → TruthValue → TruthValue
  | ff, _ | _, ff => ff
  | invalid, _ | _, invalid => invalid
  | unknown, _ | _, unknown => unknown
  | tt, tt => tt

def or : TruthValue → TruthValue → TruthValue
  | tt, _ | _, tt => tt
  | unknown, _ | _, unknown => unknown
  | invalid, _ | _, invalid => invalid
  | ff, ff => ff

instance : Complement TruthValue := ⟨negate⟩
instance : AndOp TruthValue := ⟨and⟩
instance : OrOp TruthValue := ⟨or⟩

def join : TruthValue → TruthValue → TruthValue
  | unknown, v | v, unknown => v
  | a, b => if a = b then a else invalid

/-- The value after `evidence` is asserted: an unknown value takes it, and a known value bears only itself. -/
def revise (current evidence : TruthValue) : TruthValue :=
  if current = unknown then evidence else if current = evidence then current else invalid

def le : TruthValue → TruthValue → Bool
  | unknown, _ | _, invalid => true
  | a, b => a = b

instance : LE TruthValue := ⟨fun a b => le a b = true⟩
instance (a b : TruthValue) : Decidable (a ≤ b) := inferInstanceAs (Decidable (le a b = true))

def word : TruthValue → String
  | tt => "TRUE"
  | ff => "FALSE"
  | unknown => "UNKNOWN"
  | invalid => "INVALID"

def mark : TruthValue → String
  | tt => "T"
  | ff => "F"
  | unknown => "?"
  | invalid => "!"

theorem le_refl (a : TruthValue) : a ≤ a := by cases a <;> decide

theorem le_trans {a b c : TruthValue} (h : a ≤ b) (k : b ≤ c) : a ≤ c := by
  revert h k; cases a <;> cases b <;> cases c <;> decide

theorem le_antisymm {a b : TruthValue} (h : a ≤ b) (k : b ≤ a) : a = b := by
  revert h k; cases a <;> cases b <;> decide

theorem le_join_left (a b : TruthValue) : a ≤ join a b := by cases a <;> cases b <;> decide

theorem le_join_right (a b : TruthValue) : b ≤ join a b := by cases a <;> cases b <;> decide

theorem join_le {a b c : TruthValue} (h : a ≤ c) (k : b ≤ c) : join a b ≤ c := by
  revert h k; cases a <;> cases b <;> cases c <;> decide

theorem revise_eq_join (a : TruthValue) {b : TruthValue} (h : b ≠ unknown) : revise a b = join a b := by
  revert h; cases a <;> cases b <;> decide

theorem le_revise (a b : TruthValue) : a ≤ revise a b := by cases a <;> cases b <;> decide

theorem negate_negate (a : TruthValue) : negate (negate a) = a := by cases a <;> rfl

theorem and_comm (a b : TruthValue) : and a b = and b a := by cases a <;> cases b <;> rfl

theorem or_comm (a b : TruthValue) : or a b = or b a := by cases a <;> cases b <;> rfl

theorem ofBool_and (a b : Bool) : ofBool (a && b) = and (ofBool a) (ofBool b) := by
  cases a <;> cases b <;> rfl

theorem ofBool_or (a b : Bool) : ofBool (a || b) = or (ofBool a) (ofBool b) := by
  cases a <;> cases b <;> rfl

theorem ofBool_not (a : Bool) : ofBool (!a) = negate (ofBool a) := by cases a <;> rfl

end TruthValue

end FourValued
